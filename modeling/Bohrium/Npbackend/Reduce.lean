import Bohrium.Library.Fold
import Bohrium.Library.Walk
import Mathlib.Data.List.GetD
import Mathlib.Data.List.Perm.Subperm

/-! # Reductions over several axes

`Ufunc.reduce` of the NumPy bridge, and `sum`. The axes are reduced one at a time, and after each step all the
others are renumbered by one. An axis that was in front of the reduced one then stands for the dimension
before its own, and one that becomes negative stands for the last dimension from there on. -/
namespace Bohrium.Npbackend.Reduce
open Strided Fold Walk
set_option autoImplicit false

/-! ## The code -/

/-- An array by its elements; `bool` says that its type is `np.bool`. -/
structure Ary (V : Type) where
  shape : List ℕ
  elem : List ℕ → V
  bohrium : Bool
  bool : Bool

/-- The argument `axis`. -/
inductive Axis
  | none
  | scalar (axis : ℤ)
  | tuple (axes : List ℤ)

/-- The list of dimensions to reduce. -/
def Axis.toList (ndim : ℕ) : Axis → List ℤ
  | none => (List.range ndim).map Nat.cast
  | scalar axis => [axis]
  | tuple axes => axes

/-- What is asked of the argument `out`. -/
structure Out where
  shape : List ℕ
  bohrium : Bool

inductive ReduceError
  | nameError
  | tooManyAxes
  | axisOutOfBounds
  | dimensionMismatch (expected got : List ℕ)
  | negativeAxis
  | indexError
  | recursionError
  deriving DecidableEq, Repr

/-- A function, whether its name starts with `logical`, and how booleans count. -/
structure Ufunc (V : Type) where
  op : V → V → V
  logical : Bool
  count : V → V
  numpyReduce : Ary V → Axis → Except ReduceError (Ary V)

section
variable {V : Type} (U : Ufunc V)

/-- What is reduced: booleans are counted. -/
def numeric (ary : Ary V) : Ary V :=
  if U.logical = false ∧ ary.bool = true then { ary with elem := U.count ∘ ary.elem, bool := false } else ary

/-- `tuple(s for i, s in enumerate(shape) if i != axis)`. -/
def dropAxis (shape : List ℕ) (axis : ℤ) : List ℕ :=
  (shape.zipIdx.filter fun p => decide ((p.2 : ℤ) ≠ axis)).map Prod.fst

/-- `target.reduce`. -/
def targetReduce (ary : Ary V) (axis : ℕ) (idx : List ℕ) : V :=
  (List.range' 1 (ary.shape.getD axis 1 - 1)).foldl (fun r j => U.op r (ary.elem (idx.insertIdx axis j)))
    (ary.elem (idx.insertIdx axis 0))

/-- The reduction of one axis. What is assigned to `out` is returned. -/
def reduceOne (ary : Ary V) (axis : ℤ) (out : Option Out) : Except ReduceError (Ary V) :=
  let shape := if ary.shape.length = 1 then [] else dropAxis ary.shape axis
  if ary.shape.length ≠ 1 ∧ out.any fun out => decide (out.shape ≠ shape) then
    .error (.dimensionMismatch shape ((out.map Out.shape).getD []))
  else if axis < 0 then .error .negativeAxis
  else .ok { ary with shape := shape, elem := targetReduce U ary axis.toNat, bohrium := true }

/-- `if axis[i] < 0: axis[i] = ary.ndim+axis[i]`. -/
def normalise (ndim : ℕ) (axis : ℤ) : ℤ := if axis < 0 then ndim + axis else axis

/-- `Ufunc.reduce`; `depth` bounds the recursion. -/
def reduce : ℕ → Ary V → Axis → Option Out → Except ReduceError (Ary V)
  | 0, _, _, _ => .error .recursionError
  | depth + 1, ary, axis, out =>
    -- `a.copy2numpy()` names an array that there is not
    if out.any (fun out => !out.bohrium) ∧ ary.bohrium then .error .nameError
    else
      let ary := if out.any Out.bohrium then { ary with bohrium := true } else ary
      if ary.bohrium = false then U.numpyReduce ary axis
      else
        let axes := axis.toList ary.shape.length
        let ary := numeric U ary
        if ary.shape.length < axes.length then .error .tooManyAxes
        else
          let axes := axes.map (normalise ary.shape.length)
          if axes.any fun a => decide ((ary.shape.length : ℤ) ≤ a) then .error .axisOutOfBounds
          else
            match axes with
            | [] => .error .indexError
            | [axis] => reduceOne U ary axis out
            | axis :: rest =>
              match reduce depth ary (.scalar axis) none with
              | .error e => .error e
              | .ok tmp1 => reduce depth tmp1 (.tuple (rest.map fun i => i - 1)) none

/-! ## What it is for -/

/-- The dimension that an axis number names. -/
def dimension (n : ℕ) (axis : ℤ) : ℕ := (normalise n axis).toNat

/-- The dimensions that are not listed, in order. -/
def kept (n : ℕ) (dims : List ℕ) : List ℕ := (List.range n).filter fun d => decide (d ∉ dims)

/-- The entries at the dimensions `L`. -/
def pick (L xs : List ℕ) : List ℕ := L.map fun d => xs.getD d 0

/-- Each element of `r` is the total of the elements of `ary` that agree with its index in the dimensions `L`. -/
structure Reduced (ary : Ary V) (L : List ℕ) (r : Ary V) : Prop where
  shape : r.shape = pick L ary.shape
  elem : ∀ idx ∈ indices r.shape,
    total U.op (((indices ary.shape).filter fun i => decide (pick L i = idx)).map ary.elem) = some (r.elem idx)

/-- The listed axes are reduced. -/
def ReduceRight (depth : ℕ) (ary : Ary V) (axes : List ℤ) : Prop :=
  ∃ r, reduce U depth ary (.tuple axes) none = .ok r ∧
    Reduced U (numeric U ary) (kept ary.shape.length (axes.map (dimension ary.shape.length))) r

end

/-- The number that `d` has become after `k` steps. -/
def number (n k d : ℕ) : ℕ := if k ≤ d then d - k else n - k - 1

/-- The dimension at position `p` is never reduced. -/
def Spares (n : ℕ) : ℕ → List ℕ → ℕ → Prop
  | _, [], _ => True
  | k, d :: ds, p => number n k d ≠ p ∧ Spares n (k + 1) ds (if number n k d < p then p - 1 else p)

instance decidableSpares (n : ℕ) : (k : ℕ) → (ds : List ℕ) → (p : ℕ) → Decidable (Spares n k ds p)
  | _, [], _ => isTrue trivial
  | k, d :: ds, p =>
    have := decidableSpares n (k + 1) ds (if number n k d < p then p - 1 else p)
    inferInstanceAs (Decidable (_ ∧ _))

/-! ## One axis -/

theorem dropAxis_eq (shape : List ℕ) (axis : ℕ) : dropAxis shape axis = shape.eraseIdx axis := by
  have hfrom : ∀ (shape : List ℕ) (axis m : ℕ), (((shape.zipIdx m).filter fun p => decide ((p.2 : ℤ) ≠ ((m + axis : ℕ) : ℤ))).map
      Prod.fst) = shape.eraseIdx axis := by
    intro shape
    induction shape with
    | nil => intro axis m; rfl
    | cons n shape ih =>
      intro axis m
      cases axis with
      | zero =>
        have hall : ((shape.zipIdx (m + 1)).filter fun p => decide ((p.2 : ℤ) ≠ ((m + 0 : ℕ) : ℤ))) = shape.zipIdx (m + 1) := by
          rw [List.filter_eq_self]
          intro p hp
          have hle := List.le_snd_of_mem_zipIdx hp
          simp only [decide_eq_true_eq]
          omega
        rw [List.zipIdx_cons, List.filter_cons_of_neg (by simp), hall, List.eraseIdx_cons_zero, List.zipIdx_map_fst]
      | succ axis =>
        have hrest := ih axis (m + 1)
        rw [show m + 1 + axis = m + (axis + 1) by omega] at hrest
        rw [List.zipIdx_cons, List.filter_cons_of_pos (by simp; omega), List.map_cons, hrest, List.eraseIdx_cons_succ]
  have h := hfrom shape axis 0
  rw [Nat.zero_add] at h
  exact h

theorem pick_eraseIdx (L xs : List ℕ) (x : ℕ) : pick (L.eraseIdx x) xs = (pick L xs).eraseIdx x := (List.eraseIdx_map ..).symm

theorem getD_lt_of_mem {ns i : List ℕ} (hi : i ∈ indices ns) {d : ℕ} (hd : 1 ≤ ns.getD d 0) : i.getD d 0 < ns.getD d 0 := by
  rw [mem_indices, List.forall₂_iff_get] at hi
  obtain ⟨hlen, hlt⟩ := hi
  have hdn : d < ns.length := by
    by_contra hge
    rw [List.getD_eq_default _ _ (Nat.le_of_not_lt hge)] at hd
    exact absurd hd (by decide)
  rw [List.getD_eq_getElem _ _ (hlen ▸ hdn), List.getD_eq_getElem _ _ hdn]
  exact hlt d (hlen ▸ hdn) hdn

section
variable {V : Type} {U : Ufunc V} {a r : Ary V} {L : List ℕ} {x : ℕ}

theorem targetReduce_eq [Std.Associative U.op] (hpos : 1 ≤ r.shape.getD x 1) (idx : List ℕ) :
    total U.op (((List.range (r.shape.getD x 1)).map fun j => idx.insertIdx x j).map r.elem) =
      some (targetReduce U r x idx) := by
  have hrange : List.range (r.shape.getD x 1) = 0 :: List.range' 1 (r.shape.getD x 1 - 1) := by
    obtain ⟨n, hn⟩ := Nat.exists_eq_add_of_le' hpos
    rw [hn, List.range_eq_range', List.range'_succ, Nat.add_sub_cancel]
  rw [hrange, List.map_cons, List.map_cons, total_eq_foldl, List.map_map, List.foldl_map]
  rfl

/-- One more dimension is reduced. -/
theorem Reduced.step [Std.Associative U.op] [Std.Commutative U.op] (h : Reduced U a L r) (hx : x < L.length)
    (hpos : ∀ m ∈ r.shape, 1 ≤ m) {r' : Ary V} (hshape : r'.shape = r.shape.eraseIdx x) (helem : r'.elem = targetReduce U r x) :
    Reduced U a (L.eraseIdx x) r' := by
  have hxr : x < r.shape.length := by rwa [h.shape, pick, List.length_map]
  have hlen : 1 ≤ r.shape.getD x 1 := by
    rw [List.getD_eq_getElem _ _ hxr]
    exact hpos _ (List.getElem_mem hxr)
  refine ⟨by rw [hshape, h.shape, pick_eraseIdx], fun idx hidx => ?_⟩
  rw [hshape] at hidx
  rw [helem, ← targetReduce_eq hlen idx]
  have hidxlen : x ≤ idx.length := by
    rw [(List.forall₂_iff_get.mp (mem_indices.mp hidx)).1, List.length_eraseIdx_of_lt hxr]
    omega
  refine (total_fibres U.op (pick L) a.elem r.elem ?_ _ ?_ ?_).symm
  · refine List.nodup_range.map fun j j' hjj' => ?_
    have hget := congrArg (·[x]?) hjj'
    simpa [List.getElem?_insertIdx_self, hidxlen] using hget
  · -- an element of the group lies in one row of the earlier array
    intro i hi
    obtain ⟨hi, hpick⟩ := List.mem_filter.mp hi
    rw [decide_eq_true_eq, pick_eraseIdx] at hpick
    have hxi : x < (pick L i).length := by rwa [pick, List.length_map]
    refine List.mem_map.mpr ⟨(pick L i)[x], List.mem_range.mpr ?_, ?_⟩
    · have hget : r.shape.getD x 1 = a.shape.getD L[x] 0 := by
        rw [List.getD_eq_getElem _ _ hxr]
        simp [h.shape, pick]
      have hrow : (pick L i)[x] = i.getD L[x] 0 := by simp [pick]
      rw [hrow, hget]
      exact getD_lt_of_mem hi (hget ▸ hlen)
    · rw [← hpick, List.insertIdx_eraseIdx_getElem hxi]
  · intro k hk
    obtain ⟨j, hj, rfl⟩ := List.mem_map.mp hk
    have hmem := mem_insertIdx hxr hidx (List.mem_range.mp hj)
    rw [← h.elem _ hmem, List.filter_filter]
    refine congrArg (fun l => total U.op (l.map a.elem)) (List.filter_congr fun i _ => ?_)
    by_cases heq : pick L i = idx.insertIdx x j
    · simp [heq, pick_eraseIdx, List.eraseIdx_insertIdx_self]
    · simp [heq]

theorem reduceOne_eq (hx : x < r.shape.length) : ∃ r', reduceOne U r x none = .ok r' ∧
    r'.shape = r.shape.eraseIdx x ∧ r'.elem = targetReduce U r x ∧ r'.bohrium = true ∧ r'.bool = r.bool := by
  unfold reduceOne
  dsimp only
  rw [Option.any_none, if_neg (by simp), if_neg (Int.not_lt.mpr (Int.natCast_nonneg x)), dropAxis_eq]
  refine ⟨_, rfl, ?_, rfl, rfl, rfl⟩
  dsimp only
  split
  next hone =>
    obtain ⟨n, hn⟩ := List.length_eq_one_iff.mp hone
    rw [hn, List.length_singleton] at hx
    rw [hn, Nat.lt_one_iff.mp hx]
    rfl
  next => rfl

/-! ## The recursion -/

/-- The dimensions that are left when the numbers of the axes are reduced. -/
def leftover (n : ℕ) : ℕ → List ℕ → List ℕ → List ℕ
  | _, L, [] => L
  | k, L, d :: ds => leftover n (k + 1) (L.eraseIdx (number n k d)) ds

theorem number_lt {n k d : ℕ} (hk : k < n) (hd : d < n) : number n k d < n - k := by
  unfold number
  split_ifs <;> omega

/-- An axis is renumbered with the others, and normalised again. -/
theorem normalise_number {n k d : ℕ} (hk : k + 1 < n) : normalise (n - (k + 1)) ((number n k d : ℤ) - 1) = number n (k + 1) d := by
  unfold normalise number
  split_ifs <;> omega

/-- One axis is reduced at once, several one after the other. -/
theorem reduce_bohrium (hr : r.bohrium = true) (hnumeric : numeric U r = r) {axis : Axis} {ds : List ℕ}
    (haxes : (axis.toList r.shape.length).map (normalise r.shape.length) = ds.map Nat.cast)
    (hds : ∀ d ∈ ds, d < r.shape.length) (hlen : ds.length ≤ r.shape.length) (depth : ℕ) :
    (∀ d, ds = [d] → reduce U (depth + 1) r axis none = reduceOne U r d none) ∧
      ∀ d e rest tmp, ds = d :: e :: rest → reduce U depth r (.scalar d) none = .ok tmp →
        reduce U (depth + 1) r axis none = reduce U depth tmp (.tuple ((e :: rest).map fun i : ℕ => (i : ℤ) - 1)) none := by
  have hlen' : (axis.toList r.shape.length).length = ds.length := by
    rw [← List.length_map (normalise r.shape.length), haxes, List.length_map]
  have hany : ((ds.map Nat.cast).any fun a : ℤ => decide ((r.shape.length : ℤ) ≤ a)) = false := by
    rw [List.any_eq_false]
    intro a ha
    obtain ⟨d, hd, rfl⟩ := List.mem_map.mp ha
    have hlt := hds d hd
    simp only [decide_eq_true_eq]
    omega
  constructor
  · rintro d rfl
    rw [reduce]
    simp only [Option.any_none, Bool.false_eq_true, false_and, if_false, hr, hnumeric, hlen', haxes, hany,
      Nat.not_lt.mpr hlen, Bool.true_eq_false]
    rfl
  · rintro d e rest tmp rfl htmp
    rw [reduce]
    simp only [Option.any_none, Bool.false_eq_true, false_and, if_false, hr, hnumeric, hlen', haxes, hany,
      Nat.not_lt.mpr hlen, Bool.true_eq_false]
    simp only [List.map_cons, htmp, List.map_map]
    rfl

theorem numeric_of_eq {r' : Ary V} (hnumeric : numeric U r = r) (hbool : r'.bool = r.bool) : numeric U r' = r' := by
  unfold numeric at hnumeric ⊢
  split_ifs with h'
  · rw [if_pos ⟨h'.1, hbool ▸ h'.2⟩] at hnumeric
    have hfalse := congrArg Ary.bool hnumeric
    rw [← hbool, h'.2] at hfalse
    cases hfalse
  · rfl

/-- All the listed axes are reduced, under the numbers they have by then. -/
theorem reduce_spec [Std.Associative U.op] [Std.Commutative U.op] {n k : ℕ} {ds : List ℕ} {as : List ℤ} {depth : ℕ}
    (h : Reduced U a L r) (hr : r.bohrium = true) (hnumeric : numeric U r = r) (hpos : ∀ m ∈ r.shape, 1 ≤ m)
    (hrank : r.shape.length = n - k) (hL : L.length = n - k) (hds : ∀ d ∈ ds, d < n) (hne : ds ≠ [])
    (hlen : k + ds.length ≤ n) (has : as.map (normalise (n - k)) = ds.map fun d => (number n k d : ℤ))
    (hdepth : ds.length ≤ depth) :
    ∃ r', reduce U depth r (.tuple as) none = .ok r' ∧ Reduced U a (leftover n k L ds) r' := by
  induction ds generalizing k as L r depth with
  | nil => exact absurd rfl hne
  | cons d ds ih =>
    obtain ⟨depth, rfl⟩ := Nat.exists_eq_add_of_le' (Nat.le_trans (Nat.succ_le_succ (Nat.zero_le _)) hdepth)
    rw [List.length_cons] at hlen hdepth
    rw [List.forall_mem_cons] at hds
    have hx : number n k d < n - k := number_lt (by omega) hds.1
    have hnumbers : ∀ m ∈ (d :: ds).map (number n k), m < r.shape.length := by
      intro m hm
      obtain ⟨e, he, rfl⟩ := List.mem_map.mp hm
      rw [hrank]
      refine number_lt (by omega) ?_
      obtain rfl | he := List.mem_cons.mp he
      · exact hds.1
      · exact hds.2 e he
    have htuple := @reduce_bohrium V U r hr hnumeric (.tuple as) ((d :: ds).map (number n k))
      (by rw [hrank, List.map_map]; exact has) hnumbers (by rw [List.length_map, hrank, List.length_cons]; omega) depth
    obtain ⟨r₁, hone, hshape, helem, hbohrium, hbool⟩ := @reduceOne_eq V U r (number n k d) (hrank ▸ hx)
    have hstep := h.step (hL ▸ hx) hpos hshape helem
    cases ds with
    | nil =>
      rw [htuple.1 _ rfl, hone]
      exact ⟨r₁, rfl, hstep⟩
    | cons e ds =>
      rw [List.length_cons] at hlen hdepth
      obtain ⟨depth, rfl⟩ := Nat.exists_eq_add_of_le' (show 1 ≤ depth by omega)
      have hscalar : reduce U (depth + 1) r (.scalar (number n k d)) none = .ok r₁ := by
        refine ((@reduce_bohrium V U r hr hnumeric (.scalar (number n k d)) [number n k d] ?_ ?_ ?_ depth).1 _ rfl).trans hone
        · simp [Axis.toList, normalise]
        · simpa [hrank] using hx
        · rw [hrank, List.length_singleton]
          omega
      rw [htuple.2 _ _ _ r₁ rfl hscalar]
      have hrank₁ : r₁.shape.length = n - (k + 1) := by
        rw [hshape, List.length_eraseIdx_of_lt (hrank ▸ hx), hrank]
        omega
      refine ih hstep hbohrium (numeric_of_eq hnumeric hbool) ?_ hrank₁ ?_ hds.2 (List.cons_ne_nil _ _) ?_ ?_ ?_
      · intro m hm
        rw [hshape] at hm
        exact hpos m (List.mem_of_mem_eraseIdx hm)
      · rw [List.length_eraseIdx_of_lt (hL ▸ hx), hL]
        omega
      · rw [List.length_cons]
        omega
      · rw [List.map_map, ← List.map_cons, List.map_map]
        exact List.map_congr_left fun d' _ => normalise_number (by omega)
      · rw [List.length_cons]
        omega

end

/-! ## What is left -/

theorem leftover_sublist (n k : ℕ) (L ds : List ℕ) : (leftover n k L ds).Sublist L := by
  induction ds generalizing k L with
  | nil => exact List.Sublist.refl L
  | cons d ds ih => exact (ih (k + 1) (L.eraseIdx (number n k d))).trans (List.eraseIdx_sublist L _)

theorem length_leftover {n k : ℕ} {L ds : List ℕ} (hL : L.length = n - k) (hds : ∀ d ∈ ds, d < n) (hlen : k + ds.length ≤ n) :
    (leftover n k L ds).length = n - k - ds.length := by
  induction ds generalizing k L with
  | nil => exact hL
  | cons d ds ih =>
    rw [List.length_cons] at hlen ⊢
    rw [List.forall_mem_cons] at hds
    have hx : number n k d < L.length := hL ▸ number_lt (by omega) hds.1
    rw [leftover, ih (by rw [List.length_eraseIdx_of_lt hx]; omega) hds.2 (by omega)]
    omega

/-- A dimension is left exactly if its position is never hit. -/
theorem mem_leftover_iff {n k p u : ℕ} {L ds : List ℕ} (hL : L.Nodup) (hp : L[p]? = some u) :
    u ∈ leftover n k L ds ↔ Spares n k ds p := by
  induction ds generalizing k L p with
  | nil => exact iff_of_true (List.mem_of_getElem? hp) trivial
  | cons d ds ih =>
    rw [leftover, Spares]
    by_cases heq : number n k d = p
    · refine iff_of_false (fun hmem => ?_) fun h => h.1 heq
      have hu := (leftover_sublist n (k + 1) _ ds).subset hmem
      obtain ⟨q, hqp, hq⟩ := List.mem_eraseIdx_iff_getElem?.mp hu
      obtain ⟨hpL, hpu⟩ := List.getElem?_eq_some_iff.mp hp
      obtain ⟨hqL, hqu⟩ := List.getElem?_eq_some_iff.mp hq
      exact hqp ((hL.getElem_inj_iff.mp (hqu.trans hpu.symm)).trans heq.symm)
    · rw [and_iff_right heq]
      refine ih (hL.sublist (List.eraseIdx_sublist L _)) ?_
      rw [List.getElem?_eraseIdx]
      split_ifs with hlt hle hle
      · omega
      · rw [Nat.sub_add_cancel (by omega)]
        exact hp
      · exact hp
      · omega

theorem kept_sublist (n : ℕ) (dims : List ℕ) : (kept n dims).Sublist (List.range n) := List.filter_sublist

theorem mem_kept {n u : ℕ} {dims : List ℕ} : u ∈ kept n dims ↔ u < n ∧ u ∉ dims := by
  rw [kept, List.mem_filter, List.mem_range, decide_eq_true_eq]

theorem length_kept {n : ℕ} {dims : List ℕ} (hnodup : dims.Nodup) (hdims : ∀ d ∈ dims, d < n) :
    (kept n dims).length = n - dims.length := by
  have hperm : ((List.range n).filter fun d => decide (d ∈ dims)).Perm dims := by
    rw [List.perm_ext_iff_of_nodup (List.nodup_range.filter _) hnodup]
    intro d
    rw [List.mem_filter, List.mem_range, decide_eq_true_eq]
    exact ⟨And.right, fun hd => ⟨hdims d hd, hd⟩⟩
  have hsplit := @List.length_eq_length_filter_add _ (List.range n) fun d => decide (d ∈ dims)
  have hkept : kept n dims = (List.range n).filter fun d => !decide (d ∈ dims) :=
    List.filter_congr fun d _ => decide_not
  rw [hperm.length_eq, List.length_range, ← hkept] at hsplit
  omega

/-- The right dimensions are left if none that is not listed is reduced. -/
theorem leftover_eq_kept_iff {n : ℕ} {dims : List ℕ} (hnodup : dims.Nodup) (hdims : ∀ d ∈ dims, d < n) :
    leftover n 0 (List.range n) dims = kept n dims ↔ ∀ u < n, u ∉ dims → Spares n 0 dims u := by
  have hspares : ∀ u < n, (u ∈ leftover n 0 (List.range n) dims ↔ Spares n 0 dims u) := fun u hu =>
    mem_leftover_iff List.nodup_range (List.getElem?_range hu)
  have hsub := leftover_sublist n 0 (List.range n) dims
  constructor
  · intro heq u hu hnot
    rw [← hspares u hu, heq]
    exact mem_kept.mpr ⟨hu, hnot⟩
  · intro h
    have hlen : dims.length ≤ n := by
      have hle := (hnodup.subperm fun d hd => List.mem_range.mpr (hdims d hd)).length_le
      rwa [List.length_range] at hle
    have hsubset : kept n dims ⊆ leftover n 0 (List.range n) dims := by
      intro u hu
      obtain ⟨hlt, hnot⟩ := mem_kept.mp hu
      exact (hspares u hlt).mpr (h u hlt hnot)
    have hperm : (kept n dims).Perm (leftover n 0 (List.range n) dims) := by
      refine ((List.nodup_range.sublist (kept_sublist n dims)).subperm hsubset).perm_of_length_le ?_
      have hleft := length_leftover (n := n) (k := 0) List.length_range hdims (by omega)
      rw [length_kept hnodup hdims]
      exact hleft.le
    have hsorted := List.pairwise_lt_range (n := n)
    exact (List.Perm.eq_of_pairwise (fun a b _ _ h h' => absurd (h.trans h') (Nat.lt_irrefl a))
      (hsorted.sublist (kept_sublist n dims)) (hsorted.sublist hsub) hperm).symm

/-! ## Every array -/

theorem dimension_spec {n : ℕ} {axis : ℤ} (h : -(n : ℤ) ≤ axis ∧ axis < n) :
    normalise n axis = dimension n axis ∧ dimension n axis < n := by
  unfold dimension normalise
  split_ifs <;> omega

section
variable {V : Type} {U : Ufunc V} {ary : Ary V}

theorem numeric_numeric : numeric U (numeric U ary) = numeric U ary := by
  unfold numeric
  split_ifs <;> simp_all

theorem shape_numeric : (numeric U ary).shape = ary.shape := by
  unfold numeric
  split <;> rfl

theorem bohrium_numeric : (numeric U ary).bohrium = ary.bohrium := by
  unfold numeric
  split <;> rfl

/-- Booleans are counted at once. -/
theorem reduce_numeric (hary : ary.bohrium = true) (depth : ℕ) (axis : Axis) :
    reduce U depth ary axis none = reduce U depth (numeric U ary) axis none := by
  cases depth with
  | zero => rfl
  | succ depth =>
    rw [reduce, reduce]
    simp only [Option.any_none, Bool.false_eq_true, false_and, if_false, bohrium_numeric, shape_numeric, numeric_numeric, hary,
      Bool.true_eq_false]

/-- Nothing is reduced yet. -/
theorem reduced_range (a : Ary V) : Reduced U a (List.range a.shape.length) a := by
  have hpick : ∀ i : List ℕ, i.length = a.shape.length → pick (List.range a.shape.length) i = i := by
    intro i hi
    refine List.ext_getElem (by simp [pick, hi]) fun j hj hj' => ?_
    simp [pick, List.getElem?_eq_getElem hj']
  refine ⟨(hpick _ rfl).symm, fun idx hidx => ?_⟩
  have hfilter : ((indices a.shape).filter fun i => decide (pick (List.range a.shape.length) i = idx)) = [idx] := by
    rw [show ((indices a.shape).filter fun i => decide (pick (List.range a.shape.length) i = idx)) =
        (indices a.shape).filter (· == idx) from ?_]
    · rw [List.filter_beq, List.count_eq_one_of_mem (nodup_indices _) hidx]
      rfl
    · refine List.filter_congr fun i hi => ?_
      rw [hpick i (List.forall₂_iff_get.mp (mem_indices.mp hi)).1]
      by_cases heq : i = idx <;> simp [heq]
  rw [hfilter]
  rfl

/-- What `reduce` returns, whether it is right or not. -/
theorem reduce_eq [Std.Associative U.op] [Std.Commutative U.op] {n : ℕ} {axes : List ℤ} {depth : ℕ} (hne : axes ≠ [])
    (hrange : ∀ a ∈ axes, -(n : ℤ) ≤ a ∧ a < n) (hlen : axes.length ≤ n) (hdepth : axes.length ≤ depth)
    (hary : ary.bohrium = true) (hn : ary.shape.length = n) (hpos : ∀ m ∈ ary.shape, 1 ≤ m) :
    ∃ r, reduce U depth ary (.tuple axes) none = .ok r ∧
      Reduced U (numeric U ary) (leftover n 0 (List.range n) (axes.map (dimension n))) r := by
  have hstart := reduced_range (U := U) (numeric U ary)
  rw [shape_numeric, hn] at hstart
  rw [reduce_numeric hary]
  refine reduce_spec hstart (bohrium_numeric.trans hary) numeric_numeric ?_ ?_ List.length_range ?_ ?_ ?_ ?_ ?_
  · rwa [shape_numeric]
  · rw [shape_numeric, hn]
    rfl
  · intro d hd
    obtain ⟨a, ha, rfl⟩ := List.mem_map.mp hd
    exact (dimension_spec (hrange a ha)).2
  · simpa using hne
  · rw [List.length_map]
    omega
  · rw [List.map_map]
    refine List.map_congr_left fun a ha => ?_
    exact (dimension_spec (hrange a ha)).1
  · rwa [List.length_map]

end

/-- The listed axes are reduced, for every array and every operator, exactly if no other dimension is hit. -/
theorem reduceRight_iff (n : ℕ) (axes : List ℤ) (hne : axes ≠ []) (hrange : ∀ a ∈ axes, -(n : ℤ) ≤ a ∧ a < n)
    (hnodup : (axes.map (dimension n)).Nodup) (depth : ℕ) (hdepth : axes.length ≤ depth) :
    (∀ (V : Type) (U : Ufunc V), Std.Associative U.op → Std.Commutative U.op → ∀ ary : Ary V, ary.bohrium = true →
      ary.shape.length = n → (∀ m ∈ ary.shape, 1 ≤ m) → ReduceRight U depth ary axes) ↔
    ∀ u < n, u ∉ axes.map (dimension n) → Spares n 0 (axes.map (dimension n)) u := by
  have hdims : ∀ d ∈ axes.map (dimension n), d < n := by
    intro d hd
    obtain ⟨a, ha, rfl⟩ := List.mem_map.mp hd
    exact (dimension_spec (hrange a ha)).2
  have hlen : axes.length ≤ n := by
    have hle := (hnodup.subperm fun d hd => List.mem_range.mpr (hdims d hd)).length_le
    rwa [List.length_range, List.length_map] at hle
  rw [← leftover_eq_kept_iff hnodup hdims]
  constructor
  · intro h
    -- an array whose lengths are all different
    let U : Ufunc ℕ := ⟨(· + ·), true, id, fun a _ => .ok a⟩
    let ary : Ary ℕ := ⟨(List.range n).map Nat.succ, fun _ => 0, true, false⟩
    have hn : ary.shape.length = n := by simp [ary]
    have hpos : ∀ m ∈ ary.shape, 1 ≤ m := by simp [ary]
    have hassoc : Std.Associative U.op := ⟨Nat.add_assoc⟩
    have hcomm : Std.Commutative U.op := ⟨Nat.add_comm⟩
    obtain ⟨r, hr, hleft⟩ := @reduce_eq ℕ U ary _ _ n axes depth hne hrange hlen hdepth rfl hn hpos
    obtain ⟨r', hr', hkept⟩ := h ℕ U hassoc hcomm ary rfl hn hpos
    obtain rfl := Except.ok.inj (hr.symm.trans hr')
    have hpick : ∀ L : List ℕ, (∀ d ∈ L, d < n) → pick L (numeric U ary).shape = L.map Nat.succ := by
      intro L hL
      refine List.map_congr_left fun d hd => ?_
      rw [shape_numeric]
      simp [ary, List.getElem?_range (hL d hd)]
    have hshape := hleft.shape.symm.trans hkept.shape
    rw [hn, hpick _ fun d hd => List.mem_range.mp ((leftover_sublist n 0 _ _).subset hd),
      hpick _ fun d hd => (mem_kept.mp hd).1] at hshape
    exact List.map_injective_iff.mpr Nat.succ_injective hshape
  · intro heq V U hassoc hcomm ary hary hn hpos
    obtain ⟨r, hr, hreduced⟩ := reduce_eq (U := U) hne hrange hlen hdepth hary hn hpos
    subst hn
    exact ⟨r, hr, heq ▸ hreduced⟩

/-- Three dimensions of the lengths 2, 3 and 4. -/
def cube : Ary ℕ := ⟨[2, 3, 4], fun idx => idx.sum, true, false⟩

def addNat : Ufunc ℕ := ⟨(· + ·), false, id, fun a _ => .ok a⟩

/-- The first axis and then the last one. -/
theorem reduceRight_ends : ReduceRight addNat 2 cube [0, -1] :=
  (reduceRight_iff 3 [0, -1] (by decide) (by decide) (by decide) 2 (by decide)).mpr (by decide) ℕ addNat ⟨Nat.add_assoc⟩
    ⟨Nat.add_comm⟩ cube rfl rfl (by decide)

/-- The second axis and then the first one: the last one is reduced instead of the first. -/
theorem not_reduceRight_descending : ¬ ReduceRight addNat 2 cube [1, 0] := by
  rintro ⟨r, hr, hreduced⟩
  have hshape : (reduce addNat 2 cube (.tuple [1, 0]) none).map Ary.shape = .ok [2] := rfl
  rw [hr] at hshape
  have hleft : r.shape = [2] := Except.ok.inj hshape
  have hright : r.shape = [4] := hreduced.shape.trans (by decide)
  rw [hleft] at hright
  exact absurd hright (by decide)

end Bohrium.Npbackend.Reduce
