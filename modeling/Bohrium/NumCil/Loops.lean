import Bohrium.Library.Pointers
import Bohrium.NumCil.Addresses

/-! # Loops over views

The loops that the templates of `UFunc` generate, with their pointers. The shapes of the operands are `shapes`;
the inner loops count with the lengths of `cnt`, the counters of the outer dimensions with those of `lim`. -/
namespace Bohrium.NumCil
open Strided Walk Pointers
set_option autoImplicit false

section
variable {n : ℕ} {σ : Type} (shapes : Fin (n + 1) → Shape) (lim cnt : Fin (n + 1))
  (body : (Fin (n + 1) → ℤ) → σ → Option σ)

/-! ## The loops -/

/-- `Dimensions[i].Stride` of all operands. -/
def strides (i : ℕ) : Fin (n + 1) → ℤ := fun k => ((shapes k).dim i).stride

/-- What a loop over dimension `i` adds to the pointers. -/
def extent (i : ℕ) : Fin (n + 1) → ℤ := fun k => ((shapes k).dim i).stride * ((shapes k).dim i).length

/-- One dimension. If the operands are the same there is one pointer only. -/
def flushLine (s : σ) : Option σ :=
  let totalOps := ((shapes cnt).dim 0).length
  let ix : Fin (n + 1) → ℤ := fun k => (shapes k).offset
  if ∀ k, strides shapes 0 k = strides shapes 0 0 ∧ ix k = ix 0 then
    (times (fun q : ℤ × σ => (body (fun _ => q.1) q.2).map (q.1 + strides shapes 0 0, ·)) totalOps (ix 0, s)).map Prod.snd
  else (times (step body (strides shapes 0)) totalOps (ix, s)).map Prod.snd

/-- Two dimensions; the inner loop is unrolled. -/
def flushPlane (s : σ) : Option σ :=
  let opsOuter := ((shapes cnt).dim 0).length
  let opsInner := ((shapes cnt).dim 1).length
  let remainder := opsInner % 4
  let fulls := opsInner / 4
  let op := step body (strides shapes 1)
  let four := fun q => (((op q).bind op).bind op).bind op
  let rest := fun q =>
    match remainder with
    | 1 => op q
    | 2 => (op q).bind op
    | 3 => ((op q).bind op).bind op
    | _ => some q
  (times (fun q => ((times four fulls q).bind rest).bind (skip (strides shapes 0 - extent shapes 1))) opsOuter
    (fun k => (shapes k).offset, s)).map Prod.snd

/-- The inner three dimensions, from the `i`th on. -/
def flushCube (i : ℕ) : (Fin (n + 1) → ℤ) × σ → Option ((Fin (n + 1) → ℤ) × σ) :=
  let opsOuter := ((shapes cnt).dim i).length
  let opsInner := ((shapes cnt).dim (i + 1)).length
  let opsInnerInner := ((shapes cnt).dim (i + 2)).length
  times (fun q => (times (fun q => (times (step body (strides shapes (i + 2))) opsInnerInner q).bind
    (skip (strides shapes (i + 1) - extent shapes (i + 2)))) opsInner q).bind
      (skip (strides shapes i - extent shapes (i + 1)))) opsOuter

/-- `Shape[counters]` of all operands. -/
def lookUp (counters : List ℕ) : Option (Fin (n + 1) → ℤ) :=
  if ∀ k, ((shapes k).at? counters).isSome then some fun k => ((shapes k).at? counters).getD 0 else none

/-- Three dimensions or more. -/
def flushGeneral (s : σ) : Option σ :=
  let limits := (shapes lim).lengths.take ((shapes lim).dimensions.length - 3)
  (times (fun q : List ℕ × σ => (lookUp shapes q.1).bind fun ix =>
    (flushCube shapes cnt body limits.length (ix, q.2)).map fun r => (tick limits q.1, r.2)) limits.prod
      (List.replicate limits.length 0, s)).map Prod.snd

/-- The loops of a `Flush`. -/
def flushLoops (s : σ) : Option σ :=
  if (shapes cnt).dimensions.length = 1 then flushLine shapes cnt body s
  else if (shapes cnt).dimensions.length = 2 then flushPlane shapes cnt body s
  else flushGeneral shapes lim cnt body s

/-! ## What they visit -/

/-- The pointers at an index tuple. -/
def pointers (idx : List ℕ) : Fin (n + 1) → ℤ := fun k => ((shapes k).address idx : ℤ)

variable {shapes lim cnt body}

theorem dim_length {ls : List ℕ} (hls : ∀ k, (shapes k).lengths = ls) (k : Fin (n + 1)) (i : ℕ) :
    ((shapes k).dim i).length = ls.getD i 1 := by
  rw [← hls k, Shape.length_dim]

theorem extent_eq {ls : List ℕ} (hls : ∀ k, (shapes k).lengths = ls) (i : ℕ) :
    extent shapes i = ls.getD i 1 • strides shapes i := by
  funext k
  have hlength := dim_length hls k i
  simp [extent, strides, hlength, mul_comm]

theorem times_four {α : Type} (op : α → Option α) : (fun q => (((op q).bind op).bind op).bind op) = fun q => times op 4 q := by
  funext q
  simp only [times, Option.bind_assoc, Option.bind_fun_some]

/-- The unrolled loop is the loop. -/
theorem times_unrolled {α : Type} (op : α → Option α) (m : ℕ) (q : α) :
    (times (fun q => (((op q).bind op).bind op).bind op) (m / 4) q).bind (fun q =>
      match m % 4 with
      | 1 => op q
      | 2 => (op q).bind op
      | 3 => ((op q).bind op).bind op
      | _ => some q) = times op m q := by
  have hrest : (fun q => match m % 4 with
      | 1 => op q
      | 2 => (op q).bind op
      | 3 => ((op q).bind op).bind op
      | _ => some q) = times op (m % 4) := by
    funext q
    have hlt : m % 4 < 4 := Nat.mod_lt m (by decide)
    generalize m % 4 = r at hlt
    match r, hlt with
    | 0, _ => rfl
    | 1, _ => simp [times]
    | 2, _ => simp [times]
    | 3, _ => simp [times, Option.bind_assoc]
  rw [hrest, times_four, ← times_mul, ← times_add, Nat.div_add_mod']

theorem displacements_eq (ls : List ℕ) (dims : Fin (n + 1) → List ShapeDimension)
    (hls : ∀ k, (dims k).map (·.length) = ls) :
    displacements (List.zipWith Prod.mk ls ((List.range ls.length).map fun i k => (((dims k).getD i ⟨1, 0⟩).stride : ℤ))) =
      (indices ls).map fun idx k => (displacement (dims k) idx : ℤ) := by
  induction ls generalizing dims with
  | nil =>
    rw [indices, List.map_singleton]
    show [0] = [_]
    congr 1
    funext k
    rw [List.map_eq_nil_iff.mp (hls k)]
    rfl
  | cons l ls ih =>
    have hcons : ∀ k, dims k = (dims k).getD 0 ⟨1, 0⟩ :: (dims k).tail := by
      intro k
      obtain ⟨d, ds, hd, -, -⟩ := List.map_eq_cons_iff.mp (hls k)
      rw [hd]
      rfl
    have htail : ∀ k, (dims k).tail.map (·.length) = ls := fun k => by rw [List.map_tail, hls k, List.tail_cons]
    have hrest := ih _ htail
    rw [List.length_cons, List.range_succ_eq_map, List.map_cons, List.zipWith_cons_cons, displacements, indices,
      List.map_flatMap, List.map_map]
    have hstride : (fun i (k : Fin (n + 1)) => (((dims k).getD i ⟨1, 0⟩).stride : ℤ)) ∘ Nat.succ =
        fun i k => (((dims k).tail.getD i ⟨1, 0⟩).stride : ℤ) := by
      funext i k
      simp only [Function.comp_apply]
      conv_lhs => rw [hcons k]
      rw [List.getD_cons_succ]
    rw [hstride, hrest]
    apply List.flatMap_congr
    intro i _
    rw [List.map_map, List.map_map]
    apply List.map_congr_left
    intro idx _
    funext k
    simp only [Function.comp_apply, Pi.add_apply, Pi.smul_apply]
    conv_rhs => rw [hcons k]
    rw [displacement]
    push_cast
    simp

theorem indices_append (ns ms : List ℕ) :
    indices (ns ++ ms) = (indices ns).flatMap fun idx => (indices ms).map fun idx' => idx ++ idx' := by
  induction ns with
  | nil => simp [indices]
  | cons n ns ih =>
    rw [List.cons_append, indices, ih, indices, List.flatMap_assoc]
    apply List.flatMap_congr
    intro i _
    rw [List.map_flatMap, List.flatMap_map]
    simp only [List.map_map, Function.comp_def, List.cons_append]

theorem displacement_append {ds : List ShapeDimension} {idx : List ℕ} (h : idx.length ≤ ds.length) (idx' : List ℕ) :
    displacement ds (idx ++ idx') = displacement ds idx + displacement (ds.drop idx.length) idx' := by
  induction idx generalizing ds with
  | nil => cases ds <;> simp [displacement]
  | cons i idx ih =>
    cases ds with
    | nil => simp at h
    | cons d ds =>
      rw [List.cons_append, displacement, displacement, ih (by simpa using h), List.length_cons, List.drop_succ_cons]
      omega

theorem displacement_eq_sum (ds : List ShapeDimension) (idx : List ℕ) :
    displacement ds idx = ((idx.zip ds).map fun p => p.1 * p.2.stride).sum := by
  induction idx generalizing ds with
  | nil => cases ds <;> rfl
  | cons i idx ih =>
    cases ds with
    | nil => rfl
    | cons d ds => rw [displacement, ih, List.zip_cons_cons, List.map_cons, List.sum_cons]

/-- The indexer at the first coordinates of an index tuple. -/
theorem Shape.at?_eq {sh : Shape} {ns ms : List ℕ} (h : sh.lengths = ns ++ ms) {idx : List ℕ} (hidx : idx ∈ indices ns) :
    sh.at? idx = some (sh.address idx) := by
  have hlen := (mem_indices.mp hidx).length_eq
  have hrank : sh.dimensions.length = ns.length + ms.length := by
    have := congrArg List.length h
    rwa [Shape.lengths, List.length_map, List.length_append] at this
  rw [Shape.at?, if_pos, Shape.address, displacement_eq_sum, Nat.add_comm]
  refine ⟨by omega, fun p hp => ?_⟩
  obtain ⟨k, hk, rfl⟩ := List.getElem_of_mem hp
  rw [List.length_zip] at hk
  rw [List.getElem_zip]
  have hget : (sh.dimensions[k]).length = ns[k] := by
    have := congrArg (fun l => l[k]?) h
    simp only [Shape.lengths, List.getElem?_map] at this
    rw [List.getElem?_append_left (by omega), List.getElem?_eq_getElem (by omega), List.getElem?_eq_getElem (by omega)] at this
    simpa using this
  rw [hget]
  have := List.forall₂_iff_get.mp (mem_indices.mp hidx)
  exact this.2 k (by omega) (by omega)

theorem lookUp_eq {ns ms : List ℕ} (h : ∀ k, (shapes k).lengths = ns ++ ms) {idx : List ℕ} (hidx : idx ∈ indices ns) :
    lookUp shapes idx = some (pointers shapes idx) := by
  have hat : ∀ k, (shapes k).at? idx = some ((shapes k).address idx) := fun k => Shape.at?_eq (h k) hidx
  rw [lookUp, if_pos fun k => by rw [hat]; rfl]
  simp only [hat, Option.getD_some]
  rfl

/-! ## Each of the loops -/

theorem visit_start {ls : List ℕ} (hls : ∀ k, (shapes k).lengths = ls) :
    (displacements (List.zipWith Prod.mk ls ((List.range ls.length).map (strides shapes)))).map
      ((fun k => ((shapes k).offset : ℤ)) + ·) = (indices ls).map (pointers shapes) := by
  have hdisp := displacements_eq ls (fun k => (shapes k).dimensions) hls
  rw [show (fun i (k : Fin (n + 1)) => (((shapes k).dimensions.getD i ⟨1, 0⟩).stride : ℤ)) = strides shapes from rfl] at hdisp
  rw [hdisp, List.map_map]
  apply List.map_congr_left
  intro idx _
  funext k
  simp [pointers, Shape.address]

theorem flushLine_eq {a : ℕ} (hls : ∀ k, (shapes k).lengths = [a]) (s : σ) :
    flushLine shapes cnt body s = visit body ((indices [a]).map (pointers shapes)) s := by
  have hmany : (times (step body (strides shapes 0)) a (fun k => ((shapes k).offset : ℤ), s)).map Prod.snd =
      visit body ((indices [a]).map (pointers shapes)) s := by
    rw [((walks_step body (strides shapes 0)).times a) _ s, Option.map_map, ← visit_start hls]
    exact Option.map_id'
  have hlen : ((shapes cnt).dim 0).length = a := dim_length hls cnt 0
  unfold flushLine
  dsimp only
  rw [hlen]
  split
  · next hsame =>
    rw [← hmany]
    have hconst : strides shapes 0 = fun _ => strides shapes 0 0 := funext fun k => (hsame k).1
    have hstart : (fun k => ((shapes k).offset : ℤ)) = fun _ => ((shapes 0).offset : ℤ) := funext fun k => (hsame k).2
    have hone := times_comm (g := step body (strides shapes 0)) (φ := fun q : ℤ × σ => ((fun _ => q.1 : Fin (n + 1) → ℤ), q.2))
      (f := fun q : ℤ × σ => (body (fun _ => q.1) q.2).map (q.1 + strides shapes 0 0, ·)) (fun q => by
        rw [Option.map_map, step, hconst]
        rfl) a (((shapes 0).offset : ℤ), s)
    rw [hstart, ← hone, Option.map_map]
    rfl
  · exact hmany

theorem flushPlane_eq {a b : ℕ} (hls : ∀ k, (shapes k).lengths = [a, b]) (s : σ) :
    flushPlane shapes cnt body s = visit body ((indices [a, b]).map (pointers shapes)) s := by
  have houter : ((shapes cnt).dim 0).length = a := dim_length hls cnt 0
  have hinner : ((shapes cnt).dim 1).length = b := dim_length hls cnt 1
  have hextent : extent shapes 1 = b • strides shapes 1 := extent_eq hls 1
  unfold flushPlane
  dsimp only
  simp only [times_unrolled, houter, hinner, hextent]
  rw [(((walks_step body (strides shapes 1)).row b).times a) _ s, Option.map_map, ← visit_start hls]
  exact Option.map_id'

/-- The inner three dimensions, from an element on. -/
theorem flushCube_eq {ns : List ℕ} {a b c : ℕ} (hls : ∀ k, (shapes k).lengths = ns ++ [a, b, c]) {idx : List ℕ}
    (hidx : idx ∈ indices ns) (s : σ) :
    (flushCube shapes cnt body ns.length (pointers shapes idx, s)).map Prod.snd =
      visit body ((indices [a, b, c]).map fun idx' => pointers shapes (idx ++ idx')) s := by
  have hget : ∀ j, (ns ++ [a, b, c]).getD (ns.length + j) 1 = [a, b, c].getD j 1 := by
    intro j
    rw [List.getD_append_right _ _ _ _ (by omega), Nat.add_sub_cancel_left]
  have houter : ((shapes cnt).dim ns.length).length = a := (dim_length hls cnt _).trans (hget 0)
  have hinner : ((shapes cnt).dim (ns.length + 1)).length = b := (dim_length hls cnt _).trans (hget 1)
  have hinnerInner : ((shapes cnt).dim (ns.length + 2)).length = c := (dim_length hls cnt _).trans (hget 2)
  have hextent1 : extent shapes (ns.length + 1) = b • strides shapes (ns.length + 1) := by
    rw [extent_eq hls, hget]
    rfl
  have hextent2 : extent shapes (ns.length + 2) = c • strides shapes (ns.length + 2) := by
    rw [extent_eq hls, hget]
    rfl
  have hlen := (mem_indices.mp hidx).length_eq
  have hdrop : ∀ k, ((shapes k).dimensions.drop ns.length).map (·.length) = [a, b, c] := by
    intro k
    rw [List.map_drop, show (shapes k).dimensions.map (·.length) = ns ++ [a, b, c] from hls k, List.drop_left]
  have hdisp := displacements_eq [a, b, c] (fun k => (shapes k).dimensions.drop ns.length) hdrop
  have hstride : (fun i (k : Fin (n + 1)) => ((((shapes k).dimensions.drop ns.length).getD i ⟨1, 0⟩).stride : ℤ)) =
      fun i => strides shapes (ns.length + i) := by
    funext i k
    rw [List.getD_eq_getElem?_getD, List.getElem?_drop, ← List.getD_eq_getElem?_getD]
    rfl
  rw [hstride] at hdisp
  unfold flushCube
  simp only [houter, hinner, hinnerInner, hextent1, hextent2]
  rw [((((walks_step body (strides shapes (ns.length + 2))).row c).row b).times a) _ s, Option.map_map]
  have hvisit : (displacements (List.zipWith Prod.mk [a, b, c] ((List.range 3).map fun i => strides shapes (ns.length + i)))).map
      (pointers shapes idx + ·) = (indices [a, b, c]).map fun idx' => pointers shapes (idx ++ idx') := by
    rw [show 3 = [a, b, c].length from rfl, hdisp, List.map_map]
    apply List.map_congr_left
    intro idx' _
    funext k
    have hrank : idx.length ≤ (shapes k).dimensions.length := by
      have := congrArg List.length (hls k)
      rw [Shape.lengths, List.length_map, List.length_append] at this
      omega
    simp only [Function.comp_apply, Pi.add_apply, pointers, Shape.address, displacement_append hrank, hlen]
    push_cast
    ring
  rw [← hvisit]
  exact Option.map_id'

theorem visit_flatMap {K ι : Type} (body : (K → ℤ) → σ → Option σ) (l : List ι) (g : ι → List (K → ℤ)) (s : σ) :
    l.foldlM (fun s i => visit body (g i) s) s = visit body (l.flatMap g) s := by
  induction l generalizing s with
  | nil => rfl
  | cons i l ih =>
    rw [List.foldlM_cons, List.flatMap_cons, visit_append]
    show (visit body (g i) s).bind _ = _
    congr 1
    funext t
    exact ih t

theorem foldlM_congr {ι : Type} {f g : σ → ι → Option σ} {l : List ι} (h : ∀ i ∈ l, ∀ s, f s i = g s i) (s : σ) :
    l.foldlM f s = l.foldlM g s := by
  induction l generalizing s with
  | nil => rfl
  | cons i l ih =>
    rw [List.foldlM_cons, List.foldlM_cons, h i List.mem_cons_self]
    congr 1
    funext t
    exact ih (fun j hj => h j (List.mem_cons_of_mem i hj)) t

theorem flushGeneral_eq {ns : List ℕ} {a b c : ℕ} (hls : ∀ k, (shapes k).lengths = ns ++ [a, b, c]) (s : σ) :
    flushGeneral shapes lim cnt body s = visit body ((indices (ns ++ [a, b, c])).map (pointers shapes)) s := by
  have hrank : (shapes lim).dimensions.length - 3 = ns.length := by
    have := congrArg List.length (hls lim)
    rw [Shape.lengths, List.length_map, List.length_append, List.length_cons, List.length_cons, List.length_cons,
      List.length_nil] at this
    omega
  unfold flushGeneral
  dsimp only
  rw [hrank, hls lim, List.take_left]
  let round : σ → List ℕ → Option σ := fun s counters => (lookUp shapes counters).bind fun ix =>
    (flushCube shapes cnt body ns.length (ix, s)).map Prod.snd
  have hround : ∀ (counters : List ℕ) (s : σ), ((lookUp shapes counters).bind fun ix =>
      (flushCube shapes cnt body ns.length (ix, s)).map fun r => (tick ns counters, r.2)) =
        (round s counters).map (tick ns counters, ·) := by
    intro counters s
    dsimp only [round]
    rw [Option.map_bind]
    congr 1
    funext ix
    simp only [Function.comp_apply, Option.map_map]
    rfl
  have hcounters := times_counters (f := fun q : List ℕ × σ => (lookUp shapes q.1).bind fun ix =>
    (flushCube shapes cnt body ns.length (ix, q.2)).map fun r => (tick ns q.1, r.2)) hround ns.prod (coords ns) (fun k hk => tick_coords ns hk) s
  rw [coords_zero] at hcounters
  rw [hcounters, map_coords, indices_append, List.map_flatMap]
  simp only [List.map_map]
  rw [← visit_flatMap]
  apply foldlM_congr
  intro idx hidx s
  dsimp only [round]
  rw [lookUp_eq hls hidx, Option.bind_some, flushCube_eq hls hidx]
  rfl

/-- The loops visit the elements in row-major order. -/
theorem flushLoops_eq {ls : List ℕ} (hls : ∀ k, (shapes k).lengths = ls) (hrank : ls ≠ []) (s : σ) :
    flushLoops shapes lim cnt body s = visit body ((indices ls).map (pointers shapes)) s := by
  have hlen : (shapes cnt).dimensions.length = ls.length := by
    rw [← hls cnt, Shape.lengths, List.length_map]
  unfold flushLoops
  rw [hlen]
  split
  · next hone =>
    obtain ⟨a, rfl⟩ := List.length_eq_one_iff.mp hone
    exact flushLine_eq hls s
  split
  · next htwo =>
    obtain ⟨a, b, rfl⟩ := List.length_eq_two.mp htwo
    exact flushPlane_eq hls s
  · next hone htwo =>
    have hpos := List.length_pos_iff.mpr hrank
    obtain ⟨ns, ms, rfl, hms⟩ : ∃ ns ms, ls = ns ++ ms ∧ ms.length = 3 :=
      ⟨ls.take (ls.length - 3), ls.drop (ls.length - 3), (List.take_append_drop _ _).symm, by rw [List.length_drop]; omega⟩
    obtain ⟨a, b, c, rfl⟩ := List.length_eq_three.mp hms
    exact flushGeneral_eq hls s

end

end Bohrium.NumCil
