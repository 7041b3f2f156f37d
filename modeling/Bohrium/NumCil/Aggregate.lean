import Bohrium.NumCil.Loops

/-! # Aggregation

`UFunc_Aggregate_Inner_Flush` with its loops. The first element is read before them, and a flag tells the
innermost loop to leave it out once. The loops are those of an operation that has nothing yet as its first
value. -/
namespace Bohrium.NumCil
open Strided Walk Pointers
set_option autoImplicit false

section
variable {V : Type} (f : V → V → V) (d : ℤ → Option V) (sh : Shape)

/-! ## The loops -/

/-- `result = op(result, d1[ix1]); ix1 += stride;` -/
def combine (stride : ℤ) (q : ℤ × V) : Option (ℤ × V) := (d q.1).map fun v => (q.1 + stride, f q.2 v)

def strideOf (i : ℕ) : ℤ := (sh.dim i).stride

def aggregateLine : Option V :=
  let totalOps := (sh.dim 0).length
  (d sh.offset).bind fun result =>
    (times (combine f d (strideOf sh 0)) (totalOps - 1) (sh.offset + strideOf sh 0, result)).map Prod.snd

def aggregatePlane : Option V :=
  let opsOuter := (sh.dim 0).length
  let opsInner := (sh.dim 1).length
  let outerStride := strideOf sh 0 - strideOf sh 1 * opsInner
  (d sh.offset).bind fun result => ((List.range opsOuter).foldlM (fun q i =>
    (times (combine f d (strideOf sh 1)) (opsInner - if i = 0 then 1 else 0) q).map fun q => (q.1 + outerStride, q.2))
      (sh.offset + strideOf sh 1, result)).map Prod.snd

/-- The innermost loop, with the flag `first`. -/
def aggregateRow (i : ℕ) (q : ℤ × Bool × V) : Option (ℤ × Bool × V) :=
  let opsInnerInner := (sh.dim (i + 2)).length
  let innerStride := strideOf sh (i + 1) - strideOf sh (i + 2) * opsInnerInner
  (times (combine f d (strideOf sh (i + 2))) (opsInnerInner - if q.2.1 then 1 else 0) (q.1, q.2.2)).map fun r =>
    (r.1 + innerStride, false, r.2)

def aggregateLayer (i : ℕ) (q : ℤ × Bool × V) : Option (ℤ × Bool × V) :=
  let opsInner := (sh.dim (i + 1)).length
  let outerStride := strideOf sh i - strideOf sh (i + 1) * opsInner
  (times (aggregateRow f d sh i) opsInner q).map fun r => (r.1 + outerStride, r.2)

/-- One round of the loop over the outer dimensions. -/
def aggregateRound (limits : List ℕ) (q : List ℕ × Bool × V) : Option (List ℕ × Bool × V) :=
  (sh.at? q.1).bind fun ix1 =>
    let ix1 : ℤ := if q.2.1 then ix1 + strideOf sh (limits.length + 2) else ix1
    (times (aggregateLayer f d sh limits.length) (sh.dim limits.length).length (ix1, q.2)).map fun r =>
      (tick limits q.1, r.2)

def aggregateGeneral : Option V :=
  let limits := sh.lengths.take (sh.dimensions.length - 3)
  let counters := List.replicate limits.length 0
  (sh.at? counters).bind fun ix => (d ix).bind fun result =>
    (times (aggregateRound f d sh limits) limits.prod (counters, true, result)).map fun q => q.2.2

def aggregateLoops : Option V :=
  if sh.dimensions.length = 1 then aggregateLine f d sh
  else if sh.dimensions.length = 2 then aggregatePlane f d sh
  else aggregateGeneral f d sh

/-! ## Without the flag -/

/-- The body of an aggregation that may have no value yet. -/
def gather (ix : Fin 1 → ℤ) (r : Option V) : Option (Option V) :=
  (d (ix ⟨0, Nat.one_pos⟩)).map fun v => some (r.elim v (f · v))

variable {f d sh}

theorem gather_eq (ix : Fin 1 → ℤ) (r : Option V) : gather f d ix r = (d (ix 0)).map fun v => some (r.elim v (f · v)) := rfl

/-- The state of the loops with a value. -/
def started (q : ℤ × V) : (Fin 1 → ℤ) × Option V := (fun _ => q.1, some q.2)

theorem combine_eq (stride : ℤ) (n : ℕ) (q : ℤ × V) :
    (times (combine f d stride) n q).map started = times (step (gather f d) fun _ => stride) n (started q) := by
  apply times_comm
  intro q
  rw [combine, step, gather_eq, Option.map_map, Option.map_map]
  rfl

/-- The element that was read before the loop. -/
theorem combine_first (stride : ℤ) {ix : ℤ} {r : V} (hread : d ix = some r) {n : ℕ} (hn : 0 < n) :
    (times (combine f d stride) (n - 1) (ix + stride, r)).map started =
      times (step (gather f d) fun _ => stride) n (fun _ => ix, none) := by
  obtain ⟨m, rfl⟩ := Nat.exists_eq_add_of_lt hn
  rw [combine_eq, Nat.zero_add, Nat.add_sub_cancel, times, step, gather_eq, hread]
  rfl

theorem map_started (o : Option (ℤ × V)) (back : ℤ) :
    (o.map fun q => (q.1 + back, q.2)).map started = (o.map started).bind (skip fun _ => back) := by
  cases o <;> rfl

section
variable {r : V} (hread : d sh.offset = some r)

include hread

theorem aggregateLine_eq {a : ℕ} (hls : sh.lengths = [a]) (ha : 0 < a) :
    (aggregateLine f d sh).map some = visit (gather f d) ((indices [a]).map (pointers fun _ => sh)) none := by
  have hlen : (sh.dim 0).length = a := by rw [Shape.length_dim, hls]; rfl
  have hline := combine_first (f := f) (strideOf sh 0) hread ha
  have hwalk := ((walks_step (gather f d) (strides (fun _ => sh) 0)).times a) (fun _ => (sh.offset : ℤ)) none
  have hsnd := congrArg (Option.map Prod.snd) (hline.trans hwalk)
  rw [Option.map_map, Option.map_map] at hsnd
  rw [← visit_start (fun _ => hls), aggregateLine, hlen, hread, Option.bind_some, Option.map_map]
  exact hsnd.trans Option.map_id'

theorem aggregatePlane_eq {a b : ℕ} (hls : sh.lengths = [a, b]) (ha : 0 < a) (hb : 0 < b) :
    (aggregatePlane f d sh).map some = visit (gather f d) ((indices [a, b]).map (pointers fun _ => sh)) none := by
  have houter : (sh.dim 0).length = a := by rw [Shape.length_dim, hls]; rfl
  have hinner : (sh.dim 1).length = b := by rw [Shape.length_dim, hls]; rfl
  let back : ℤ := strideOf sh 0 - strideOf sh 1 * b
  have hback : (fun _ => back) = strides (fun _ : Fin 1 => sh) 0 - b • strides (fun _ => sh) 1 := by
    funext k
    simp [back, strides, strideOf, mul_comm]
  let row : (Fin 1 → ℤ) × Option V → Option ((Fin 1 → ℤ) × Option V) := fun q =>
    (times (step (gather f d) (strides (fun _ => sh) 1)) b q).bind (skip fun _ => back)
  have hrow : ∀ q, ((times (combine f d (strideOf sh 1)) b q).map fun q => (q.1 + back, q.2)).map started = row (started q) := by
    intro q
    rw [map_started, combine_eq]
    rfl
  have hfirst : ((times (combine f d (strideOf sh 1)) (b - 1) (sh.offset + strideOf sh 1, r)).map
      fun q => (q.1 + back, q.2)).map started = row (fun _ => sh.offset, none) := by
    rw [map_started, combine_first _ hread hb]
    rfl
  obtain ⟨m, rfl⟩ := Nat.exists_eq_succ_of_ne_zero ha.ne'
  have hwalk := ((walks_step (gather f d) (strides (fun _ => sh) 1)).row (e := strides (fun _ => sh) 0) b).times
    (m + 1) (fun _ => (sh.offset : ℤ)) none
  rw [← hback] at hwalk
  have hsnd := congrArg (Option.map Prod.snd) hwalk
  rw [Option.map_map] at hsnd
  rw [← visit_start (fun _ => hls)]
  refine Eq.trans ?_ (hsnd.trans Option.map_id')
  rw [aggregatePlane, houter, hinner, hread, Option.bind_some, List.range_succ_eq_map, List.foldlM_cons]
  simp only [List.foldlM_map, Nat.succ_ne_zero, if_false, if_true, Nat.sub_zero, foldlM_const, List.length_range]
  show ((((times (combine f d (strideOf sh 1)) (b - 1) (sh.offset + strideOf sh 1, r)).map fun q => (q.1 + back, q.2)).bind
    (times (fun q => (times (combine f d (strideOf sh 1)) b q).map fun q => (q.1 + back, q.2)) m)).map Prod.snd).map some =
      ((row (fun _ => sh.offset, none)).bind (times row m)).map Prod.snd
  rw [← hfirst]
  cases ((times (combine f d (strideOf sh 1)) (b - 1) (sh.offset + strideOf sh 1, r)).map fun q => (q.1 + back, q.2)) with
  | none => rfl
  | some q =>
    rw [Option.map_some, Option.bind_some, Option.bind_some, ← times_comm hrow, Option.map_map, Option.map_map]
    rfl

end

/-! ## Three dimensions or more -/

/-- The state of the loops: with the flag set, the pointer is one element ahead and there is no value yet. -/
def resumed (e : ℤ) (q : ℤ × Bool × V) : (Fin 1 → ℤ) × Option V :=
  if q.2.1 then (fun _ => q.1 - e, none) else started (q.1, q.2.2)

/-- While the flag is set, the value is the element before the pointer. -/
def Ahead (d : ℤ → Option V) (e : ℤ) (q : ℤ × Bool × V) : Prop := q.2.1 = true → d (q.1 - e) = some q.2.2

/-- The inner loops without the flag. -/
def plainRow (f : V → V → V) (d : ℤ → Option V) (sh : Shape) (i : ℕ) (q : (Fin 1 → ℤ) × Option V) :
    Option ((Fin 1 → ℤ) × Option V) :=
  (times (step (gather f d) (strides (fun _ => sh) (i + 2))) (sh.dim (i + 2)).length q).bind
    (skip (strides (fun _ => sh) (i + 1) - extent (fun _ => sh) (i + 2)))

def plainLayer (f : V → V → V) (d : ℤ → Option V) (sh : Shape) (i : ℕ) (q : (Fin 1 → ℤ) × Option V) :
    Option ((Fin 1 → ℤ) × Option V) :=
  (times (plainRow f d sh i) (sh.dim (i + 1)).length q).bind
    (skip (strides (fun _ => sh) i - extent (fun _ => sh) (i + 1)))

theorem ahead_of_false {e : ℤ} {q : ℤ × Bool × V} (h : q.2.1 = false) : Ahead d e q := fun ht => by simp [h] at ht

theorem map_resumed (o : Option (ℤ × V)) (back e : ℤ) :
    (o.map fun r => (r.1 + back, false, r.2)).map (resumed e) = (o.map started).bind (skip fun _ => back) := by
  cases o <;> rfl

theorem flag_aggregateRow (i : ℕ) (q : ℤ × Bool × V) : ∀ b ∈ aggregateRow f d sh i q, b.2.1 = false := by
  intro b hb
  obtain ⟨r, -, rfl⟩ := Option.map_eq_some_iff.mp hb
  rfl

theorem aggregateRow_eq {i : ℕ} (hpos : 0 < (sh.dim (i + 2)).length) {q : ℤ × Bool × V} (hq : Ahead d (strideOf sh (i + 2)) q) :
    (aggregateRow f d sh i q).map (resumed (strideOf sh (i + 2))) = plainRow f d sh i (resumed (strideOf sh (i + 2)) q) := by
  obtain ⟨ix, first, r⟩ := q
  rw [aggregateRow, map_resumed]
  cases first with
  | true =>
    have hfirst := combine_first (f := f) (strideOf sh (i + 2)) (hq rfl) hpos
    rw [Int.sub_add_cancel] at hfirst
    exact congrArg (Option.bind · _) hfirst
  | false => exact congrArg (Option.bind · _) (combine_eq _ _ (ix, r))

theorem flag_aggregateLayer {i : ℕ} (hpos : 0 < (sh.dim (i + 1)).length) (q : ℤ × Bool × V) :
    ∀ b ∈ aggregateLayer f d sh i q, b.2.1 = false := by
  intro b hb
  obtain ⟨r, hr, rfl⟩ := Option.map_eq_some_iff.mp hb
  exact times_forall (flag_aggregateRow i) hpos q r hr

theorem aggregateLayer_eq {i : ℕ} (hpos1 : 0 < (sh.dim (i + 1)).length) (hpos2 : 0 < (sh.dim (i + 2)).length)
    {q : ℤ × Bool × V} (hq : Ahead d (strideOf sh (i + 2)) q) :
    (aggregateLayer f d sh i q).map (resumed (strideOf sh (i + 2))) = plainLayer f d sh i (resumed (strideOf sh (i + 2)) q) := by
  have hrows := (times_map (P := Ahead d (strideOf sh (i + 2))) (f := aggregateRow f d sh i) (g := plainRow f d sh i)
    (fun q hq => ⟨aggregateRow_eq hpos2 hq, fun b hb => ahead_of_false (flag_aggregateRow i q b hb)⟩)
    (sh.dim (i + 1)).length hq).1
  have hflag := times_forall (@flag_aggregateRow V f d sh i) hpos1 q
  rw [plainLayer, ← hrows, aggregateLayer]
  cases hr : times (aggregateRow f d sh i) (sh.dim (i + 1)).length q with
  | none => rfl
  | some r =>
    have hfalse := hflag r hr
    obtain ⟨ix, first, v⟩ := r
    obtain rfl : first = false := hfalse
    rfl

/-- The same for the loops over the outer dimensions. -/
def resumedRound (q : List ℕ × Bool × V) : List ℕ × Option V := (q.1, if q.2.1 then none else some q.2.2)

def AheadRound (d : ℤ → Option V) (sh : Shape) (q : List ℕ × Bool × V) : Prop :=
  q.2.1 = true → ∃ ix, sh.at? q.1 = some ix ∧ d ix = some q.2.2

theorem lookUp_one (counters : List ℕ) : lookUp (fun _ : Fin 1 => sh) counters = (sh.at? counters).map fun (ix : ℕ) _ => (ix : ℤ) := by
  rw [lookUp]
  cases hat : sh.at? counters with
  | none => simp
  | some ix => simp

theorem flag_aggregateRound {limits : List ℕ} (hpos : 0 < (sh.dim limits.length).length)
    (hpos1 : 0 < (sh.dim (limits.length + 1)).length) (q : List ℕ × Bool × V) :
    ∀ b ∈ aggregateRound f d sh limits q, b.2.1 = false := by
  intro b hb
  obtain ⟨ix, -, hb⟩ := Option.bind_eq_some_iff.mp hb
  obtain ⟨r, hr, rfl⟩ := Option.map_eq_some_iff.mp hb
  exact times_forall (flag_aggregateLayer hpos1) hpos _ r hr

theorem aggregateRound_eq {limits : List ℕ} (hpos1 : 0 < (sh.dim (limits.length + 1)).length)
    (hpos2 : 0 < (sh.dim (limits.length + 2)).length) {q : List ℕ × Bool × V} (hq : AheadRound d sh q) :
    (aggregateRound f d sh limits q).map resumedRound = (lookUp (fun _ => sh) (resumedRound q).1).bind fun ix =>
      (flushCube (fun _ => sh) 0 (gather f d) limits.length (ix, (resumedRound q).2)).map fun r =>
        (tick limits (resumedRound q).1, r.2) := by
  obtain ⟨counters, first, v⟩ := q
  rw [aggregateRound, lookUp_one]
  show ((sh.at? counters).bind _).map _ = ((sh.at? counters).map _).bind _
  cases hat : sh.at? counters with
  | none => rfl
  | some ix =>
    rw [Option.bind_some, Option.map_some, Option.bind_some]
    dsimp only
    have hahead : Ahead d (strideOf sh (limits.length + 2))
        (if first then (ix : ℤ) + strideOf sh (limits.length + 2) else ix, first, v) := by
      intro hfirst
      obtain rfl : first = true := hfirst
      obtain ⟨ix', hat', hread⟩ := hq rfl
      obtain rfl := Option.some.inj (hat.symm.trans hat')
      rw [if_pos rfl, Int.add_sub_cancel]
      exact hread
    have hlayers := (times_map (P := Ahead d (strideOf sh (limits.length + 2))) (f := aggregateLayer f d sh limits.length)
      (g := plainLayer f d sh limits.length) (fun q hq => ⟨aggregateLayer_eq hpos1 hpos2 hq, fun b hb =>
        ahead_of_false (flag_aggregateLayer hpos1 q b hb)⟩) (sh.dim limits.length).length hahead).1
    have hstart : resumed (strideOf sh (limits.length + 2))
        (if first then (ix : ℤ) + strideOf sh (limits.length + 2) else ix, first, v) =
          ((fun _ => (ix : ℤ)), if first then none else some v) := by
      cases first with
      | true => simp [resumed]
      | false => simp [resumed, started]
    rw [hstart] at hlayers
    have hcube : flushCube (fun _ : Fin 1 => sh) 0 (gather f d) limits.length ((fun _ => (ix : ℤ)), if first then none else some v) =
        times (plainLayer f d sh limits.length) (sh.dim limits.length).length
          ((fun _ => (ix : ℤ)), if first then none else some v) := rfl
    rw [resumedRound, hcube, ← hlayers, Option.map_map, Option.map_map]
    congr 1
    funext r
    obtain ⟨ix', first', v'⟩ := r
    cases first' <;> rfl

theorem zeros_mem {ns : List ℕ} (hpos : ∀ n ∈ ns, 0 < n) : List.replicate ns.length 0 ∈ indices ns := by
  rw [← coords_zero]
  exact coords_mem (zero_lt_prod hpos)

theorem address_zeros {sh : Shape} (k : ℕ) : sh.address (List.replicate k 0) = sh.offset := by
  have hzero : ∀ (ds : List ShapeDimension) (k : ℕ), displacement ds (List.replicate k 0) = 0 := by
    intro ds
    induction ds with
    | nil => exact fun k => by cases k <;> rfl
    | cons d ds ih =>
      intro k
      cases k with
      | zero => rfl
      | succ k => rw [List.replicate_succ, displacement, ih, Nat.zero_mul]
  rw [Shape.address, hzero, Nat.add_zero]

theorem aggregateGeneral_eq {ns : List ℕ} {a b c : ℕ} {r : V} (hread : d sh.offset = some r)
    (hls : sh.lengths = ns ++ [a, b, c]) (hpos : ∀ n ∈ sh.lengths, 0 < n) :
    (aggregateGeneral f d sh).map some =
      visit (gather f d) ((indices (ns ++ [a, b, c])).map (pointers fun _ => sh)) none := by
  have hrank : sh.dimensions.length - 3 = ns.length := by
    have := congrArg List.length hls
    rw [Shape.lengths, List.length_map, List.length_append, List.length_cons, List.length_cons, List.length_cons,
      List.length_nil] at this
    omega
  have hdim : ∀ j, (sh.dim (ns.length + j)).length = [a, b, c].getD j 1 := by
    intro j
    rw [Shape.length_dim, hls, List.getD_append_right _ _ _ _ (by omega), Nat.add_sub_cancel_left]
  rw [hls] at hpos
  have hpos0 : 0 < (sh.dim ns.length).length := hdim 0 ▸ hpos a (by simp)
  have hpos1 : 0 < (sh.dim (ns.length + 1)).length := hdim 1 ▸ hpos b (by simp)
  have hpos2 : 0 < (sh.dim (ns.length + 2)).length := hdim 2 ▸ hpos c (by simp)
  have hns : ∀ n ∈ ns, 0 < n := fun n hn => hpos n (List.mem_append_left _ hn)
  have hzeros : sh.at? (List.replicate ns.length 0) = some sh.offset := by
    rw [Shape.at?_eq hls (zeros_mem hns), address_zeros]
  have hrounds := (times_map (P := AheadRound d sh) (f := aggregateRound f d sh ns) (φ := resumedRound)
    (g := fun q : List ℕ × Option V => (lookUp (fun _ => sh) q.1).bind fun ix =>
      (flushCube (fun _ => sh) 0 (gather f d) ns.length (ix, q.2)).map fun r => (tick ns q.1, r.2))
    (fun q hq => ⟨aggregateRound_eq hpos1 hpos2 hq, fun b hb ht => by simp [flag_aggregateRound hpos0 hpos1 q b hb] at ht⟩)
    ns.prod (a := (List.replicate ns.length 0, true, r)) fun _ => ⟨sh.offset, hzeros, hread⟩).1
  have hflag := times_forall (flag_aggregateRound (f := f) (d := d) hpos0 hpos1) (zero_lt_prod hns)
    (List.replicate ns.length 0, true, r)
  have hgeneral : flushGeneral (fun _ : Fin 1 => sh) 0 0 (gather f d) none = _ := flushGeneral_eq (fun _ => hls) none
  unfold flushGeneral at hgeneral
  dsimp only at hgeneral
  rw [hrank, hls, List.take_left] at hgeneral
  rw [← hgeneral]
  refine Eq.trans ?_ (congrArg (Option.map Prod.snd) hrounds)
  rw [aggregateGeneral]
  rw [hrank, hls, List.take_left, hzeros, Option.bind_some, hread, Option.bind_some, Option.map_map, Option.map_map]
  cases hq : times (aggregateRound f d sh ns) ns.prod (List.replicate ns.length 0, true, r) with
  | none => rfl
  | some q =>
    have hfalse := hflag q hq
    obtain ⟨counters, first, v⟩ := q
    obtain rfl : first = false := hfalse
    rfl

theorem aggregateLoops_eq {r : V} (hread : d sh.offset = some r) (hrank : sh.dimensions ≠ []) (hpos : ∀ n ∈ sh.lengths, 0 < n) :
    (aggregateLoops f d sh).map some = visit (gather f d) ((indices sh.lengths).map (pointers fun _ => sh)) none := by
  have hlen : sh.dimensions.length = sh.lengths.length := (List.length_map _).symm
  unfold aggregateLoops
  rw [hlen]
  split
  · next hone =>
    obtain ⟨a, ha⟩ := List.length_eq_one_iff.mp hone
    rw [aggregateLine_eq hread ha (hpos a (by simp [ha])), ha]
  split
  · next htwo =>
    obtain ⟨a, b, hab⟩ := List.length_eq_two.mp htwo
    rw [aggregatePlane_eq hread hab (hpos a (by simp [hab])) (hpos b (by simp [hab])), hab]
  · next hone htwo =>
    have hthree : 3 ≤ sh.lengths.length := by
      have := List.length_pos_iff.mpr hrank
      omega
    obtain ⟨ns, ms, hls, hms⟩ : ∃ ns ms, sh.lengths = ns ++ ms ∧ ms.length = 3 :=
      ⟨_, _, (List.take_append_drop (sh.lengths.length - 3) _).symm, by rw [List.length_drop]; omega⟩
    obtain ⟨a, b, c, rfl⟩ := List.length_eq_three.mp hms
    rw [aggregateGeneral_eq hread hls hpos, hls]

theorem visit_gather (ps : List (Fin 1 → ℤ)) (x : (Fin 1 → ℤ) → V) (hread : ∀ p ∈ ps, d (p 0) = some (x p)) (r : V) :
    visit (gather f d) ps (some r) = some (some ((ps.map x).foldl f r)) := by
  induction ps generalizing r with
  | nil => rfl
  | cons p ps ih =>
    rw [List.forall_mem_cons] at hread
    rw [visit, List.foldlM_cons, gather_eq, hread.1]
    exact ih hread.2 _

end

/-! ## Results -/

section
variable {V : Type}

/-- `d1[ix]` for the array of an accessor. -/
def Accessor.read (a : Accessor) (m : Data V) (ix : ℤ) : Option V :=
  if 0 ≤ ix ∧ ix < a.size then some (m a ix.toNat) else none

theorem Accessor.read_of_lt {a : Accessor} {i : ℕ} (h : i < a.size) (m : Data V) : a.read m i = some (m a i) := by
  rw [Accessor.read, if_pos (by omega), Int.toNat_natCast]

/-- `UFunc_Aggregate_Inner_Flush`, `none` if it throws. -/
def aggregateInnerFlush (f : V → V → V) (in1 : NdArray) (m : Data V) : Option V := aggregateLoops f (in1.accessor.read m) in1.shape

/-- The elements of a view in row-major order. -/
def NdArray.elementList (x : NdArray) (m : Data V) : List V :=
  (indices x.shape.lengths).map fun idx => m x.accessor (x.shape.address idx)

theorem NdArray.length_pos (x : NdArray) : ∀ n ∈ x.shape.lengths, 0 < n := by
  intro n hn
  obtain ⟨d, hd, rfl⟩ := List.mem_map.mp hn
  exact x.positive d hd

theorem indices_eq_cons {ns : List ℕ} (hpos : ∀ n ∈ ns, 0 < n) :
    indices ns = List.replicate ns.length 0 :: (indices ns).tail := by
  obtain ⟨p, hp⟩ := Nat.exists_eq_succ_of_ne_zero (zero_lt_prod hpos).ne'
  rw [← map_coords, hp, List.range_succ_eq_map, List.map_cons, coords_zero, List.tail_cons]

theorem aggregateInnerFlush_eq_foldl (f : V → V → V) (in1 : NdArray) (hrank : in1.shape.dimensions ≠ []) (m : Data V) :
    aggregateInnerFlush f in1 m =
      some (((indices in1.shape.lengths).tail.map fun idx => m in1.accessor (in1.shape.address idx)).foldl f
        (m in1.accessor in1.shape.offset)) := by
  have hread : ∀ idx ∈ indices in1.shape.lengths,
      in1.accessor.read m (pointers (fun _ : Fin 1 => in1.shape) idx 0) = some (m in1.accessor (in1.shape.address idx)) :=
    fun idx hidx => Accessor.read_of_lt (in1.address_lt hidx) m
  have hoffset : pointers (fun _ : Fin 1 => in1.shape) (List.replicate in1.shape.lengths.length 0) 0 = in1.shape.offset := by
    rw [pointers, address_zeros]
  rw [indices_eq_cons in1.length_pos, List.forall_mem_cons, hoffset, address_zeros] at hread
  have hloops := aggregateLoops_eq (f := f) hread.1 hrank in1.length_pos
  rw [indices_eq_cons in1.length_pos, List.map_cons, visit, List.foldlM_cons, gather_eq, hoffset, hread.1] at hloops
  have hrest := visit_gather (f := f) (d := in1.accessor.read m) ((indices in1.shape.lengths).tail.map (pointers fun _ => in1.shape))
    (fun p => m in1.accessor (p 0).toNat) (by
      intro p hp
      obtain ⟨idx, hidx, rfl⟩ := List.mem_map.mp hp
      rw [hread.2 idx hidx]
      rfl) (m in1.accessor in1.shape.offset)
  rw [List.map_map] at hrest
  obtain ⟨v, hv, hvalue⟩ := Option.map_eq_some_iff.mp (hloops.trans hrest)
  rw [aggregateInnerFlush, hv, Option.some.inj hvalue]
  rfl

/-- The loops do what `aggregateFlush` says. -/
theorem aggregateInnerFlush_eq (f : V → V → V) (in1 : NdArray) (hrank : in1.shape.dimensions ≠ []) (m : Data V) :
    aggregateInnerFlush f in1 m = some (aggregateFlush f in1 m) := by
  rw [aggregateInnerFlush_eq_foldl f in1 hrank, aggregateFlush, Shape.addresses_eq, ← List.map_tail, List.foldl_map,
    List.foldl_map]

/-- An aggregation is the left fold over the elements of the view in row-major order. -/
theorem aggregateInnerFlush_rowMajor (f : V → V → V) (in1 : NdArray) (hrank : in1.shape.dimensions ≠ []) (m : Data V) :
    ∃ x xs, in1.elementList m = x :: xs ∧ aggregateInnerFlush f in1 m = some (xs.foldl f x) := by
  refine ⟨m in1.accessor in1.shape.offset, (in1.shape.addresses.tail.map (m in1.accessor)), ?_, ?_⟩
  · rw [NdArray.elementList, Shape.addresses_eq, indices_eq_cons in1.length_pos, List.map_cons, List.map_cons, List.tail_cons,
      List.map_map, address_zeros]
    rfl
  · rw [aggregateInnerFlush_eq f in1 hrank, aggregateFlush, List.foldl_map]

end

/-- Two layers of one row of two elements. -/
def layersView : NdArray where
  accessor := ⟨0, 6⟩
  shape := ⟨1, [⟨2, 3⟩, ⟨1, 0⟩, ⟨2, 1⟩]⟩
  positive := by decide
  fits := by decide

theorem aggregateInnerFlush_layers : ∃ x xs, layersView.elementList (fun _ i => (i : ℤ)) = x :: xs ∧
    aggregateInnerFlush (· - ·) layersView (fun _ i => (i : ℤ)) = some (xs.foldl (· - ·) x) :=
  aggregateInnerFlush_rowMajor (· - ·) layersView (by decide) fun _ i => (i : ℤ)

end Bohrium.NumCil
