import Bohrium.Library.Elementwise
import Bohrium.Library.Walk
import Bohrium.NumCil.Addresses

/-! # Reductions along an axis

`UFunc_Reduce_Inner_Flush` against the left fold along the axis. All its special cases are one loop over
the elements of the output (`reduceFlush_short`); the general case is one such loop for every element of
the axis. -/
namespace Bohrium.NumCil
open Strided Walk Elementwise
set_option autoImplicit false

/-! ## Loops, element by element -/

section
variable {V : Type}

/-- The contents of every accessor as one memory. -/
def cells (m : Data V) : Accessor × ℕ → V := fun p => m p.1 p.2

theorem cells_set (m : Data V) (a : Accessor) (i : ℕ) (v : V) :
    cells (m.set a i v) = Function.update (cells m) (a, i) v := by
  funext p
  obtain ⟨b, k⟩ := p
  by_cases hb : b = a
  · subst hb
    by_cases hk : k = i
    · simp [cells, Data.set, hk]
    · have hne : (b, k) ≠ (b, i) := fun e => hk (Prod.mk.inj e).2
      simp [cells, Data.set, hk]
  · have hne : (b, k) ≠ (a, i) := fun e => hb (Prod.mk.inj e).1
    rw [Function.update_of_ne hne, cells, Data.set, Function.update_of_ne hb]
    rfl

theorem cells_loop {ι : Type} (out : Accessor) (order : List ι) (o : ι → ℕ) (value : (Accessor × ℕ → V) → ι → V)
    (m : Data V) : cells (loop out (order.map fun i => ⟨o i, fun m => value (cells m) i⟩) m) =
      run (fun i => (out, o i)) value order (cells m) := by
  induction order generalizing m with
  | nil => rfl
  | cons i order ih =>
    rw [run_cons, ← cells_set, ← ih]
    rfl

end

/-! ## The fold along an axis -/

/-- The lengths `SetupReduceHelper` asks of the output. -/
def reducedLengths (sh : Shape) (axis : ℕ) : List ℕ :=
  if sh.dimensions.length = 1 then [1] else sh.lengths.eraseIdx axis

/-- The index tuple of the input that is `j` along the axis and that of the output elsewhere. -/
def sourceIndex (sh : Shape) (axis : ℕ) (idx : List ℕ) (j : ℕ) : List ℕ :=
  if sh.dimensions.length = 1 then [j] else idx.insertIdx axis j

def source (in1 : NdArray) (axis : ℕ) (idx : List ℕ) (j : ℕ) : ℕ :=
  in1.shape.address (sourceIndex in1.shape axis idx j)

/-- The left fold of the first `n` values. -/
def foldFirst {V : Type} (f : V → V → V) (n : ℕ) (x : ℕ → V) : V :=
  (List.range' 1 (n - 1)).foldl (fun v j => f v (x j)) (x 0)

/-- Every element of the output becomes the left fold along the axis, and nothing else changes. -/
def ReduceRight (axis : ℕ) (in1 out : NdArray) : Prop :=
  ∀ (V : Type) (dflt : Bool) (f : V → V → V) (m : Data V),
    (∀ idx ∈ indices out.shape.lengths, reduceFlush dflt f axis in1 out m out.accessor (out.shape.address idx) =
      foldFirst f (in1.shape.dim axis).length fun j => m in1.accessor (source in1 axis idx j)) ∧
    ∀ a i, (a = out.accessor → i ∉ out.shape.addresses) → reduceFlush dflt f axis in1 out m a i = m a i

/-- The loop along the last axis of an array of at most two dimensions is bounded by an address. -/
def Stuck (sh : Shape) (axis : ℕ) : Prop :=
  sh.dimensions.length ≤ 2 ∧ axis + 1 = sh.dimensions.length ∧ (sh.dim axis).stride = 0 ∧ (sh.dim axis).length ≠ 1

/-- The general case goes through the output once for every element of the axis. -/
def Accumulates (sh : Shape) (axis : ℕ) : Prop := 2 < sh.dimensions.length ∧ (sh.dim axis).length ≠ 1

instance (sh : Shape) (axis : ℕ) : Decidable (Stuck sh axis) := inferInstanceAs (Decidable (_ ∧ _))
instance (sh : Shape) (axis : ℕ) : Decidable (Accumulates sh axis) := inferInstanceAs (Decidable (_ ∧ _))

/-- Elements of the output at one address are to hold one value, and there are none where the output is
updated step by step. -/
def OutputFree (axis : ℕ) (in1 out : NdArray) : Prop :=
  (Accumulates in1.shape axis → out.shape.addresses.Nodup) ∧
  ∀ idx ∈ indices out.shape.lengths, ∀ idx' ∈ indices out.shape.lengths,
    out.shape.address idx = out.shape.address idx' →
      ∀ j < (in1.shape.dim axis).length, source in1 axis idx j = source in1 axis idx' j

instance (axis : ℕ) (in1 out : NdArray) : Decidable (OutputFree axis in1 out) := inferInstanceAs (Decidable (_ ∧ _))

/-! ## The special cases -/

/-- The elements of the axis behind the first one that the special cases visit. -/
def visited (sh : Shape) (axis : ℕ) : List ℕ :=
  if Stuck sh axis then [] else List.range' 1 ((sh.dim axis).length - 1)

theorem indices_one (n : ℕ) : indices [n] = (List.range n).map fun i => [i] := by
  simp [indices, List.map_eq_flatMap]

theorem address_one {sh : Shape} {n : ℕ} (h : sh.lengths = [n]) (i : ℕ) :
    sh.address [i] = sh.offset + i * (sh.dim 0).stride := by
  obtain ⟨d, hd, -⟩ := List.map_eq_singleton_iff.mp h
  simp [Shape.address, Shape.dim, hd, displacement]

section
variable {V : Type} {f : V → V → V} {axis : ℕ} {in1 out : NdArray}

theorem reduceFlush_copy (haxis : axis < in1.shape.dimensions.length) (hrank : 1 < in1.shape.dimensions.length)
    (hone : (in1.shape.dim axis).length = 1) (hlen : out.shape.lengths = reducedLengths in1.shape axis) (m : Data V) :
    reduceFlush false f axis in1 out m = loop out.accessor ((indices out.shape.lengths).map fun idx =>
      ⟨out.shape.address idx, fun m => m in1.accessor (source in1 axis idx 0)⟩) m := by
  have hcase : reduceCase in1.shape axis = .copy := if_pos ⟨hone, hrank⟩
  rw [reducedLengths, if_neg hrank.ne'] at hlen
  simp only [reduceFlush, hcase, unaryFlush, Bool.false_eq_true, false_and, if_false]
  rw [Shape.addresses_removeAxis haxis, out.shape.addresses_eq, ← hlen, List.zip_map', List.map_map]
  simp only [source, sourceIndex, if_neg hrank.ne']
  rfl

theorem reduceFlush_line {d : ShapeDimension} (hd : in1.shape.dimensions = [d])
    (hlen : out.shape.lengths = reducedLengths in1.shape 0) (m : Data V) :
    reduceFlush false f 0 in1 out m = loop out.accessor ((indices out.shape.lengths).map fun idx =>
      ⟨out.shape.address idx, fun m => (visited in1.shape 0).foldl
        (fun v j => f v (m in1.accessor (source in1 0 idx j))) (m in1.accessor (source in1 0 idx 0))⟩) m := by
  have hcase : reduceCase in1.shape 0 = .line d := by simp [reduceCase, hd]
  have hvisited : visited in1.shape 0 = strideLoop d := by
    by_cases hstride : d.stride = 0
    · by_cases hone : d.length = 1
      · simp [visited, Stuck, strideLoop, Shape.dim, hd, hstride, hone]
      · simp [visited, Stuck, strideLoop, Shape.dim, hd, hstride, hone]
    · simp [visited, Stuck, strideLoop, Shape.dim, hd, hstride]
  have hsource : ∀ j, source in1 0 [0] j = in1.shape.offset + j * d.stride := by
    intro j
    simp [source, sourceIndex, Shape.address, displacement, hd]
  have hout : out.shape.address [0] = out.shape.offset := by
    rw [Shape.address]
    cases out.shape.dimensions with
    | nil => rfl
    | cons e es => simp [displacement]
  have hindices : indices out.shape.lengths = [[0]] := by
    rw [hlen, reducedLengths, hd]
    rfl
  simp only [reduceFlush, hcase]
  rw [hindices, hvisited]
  simp only [List.map_cons, List.map_nil, hsource, hout, Nat.zero_mul, Nat.add_zero]

theorem reduceFlush_columns {d₀ d₁ : ShapeDimension} (hd : in1.shape.dimensions = [d₀, d₁]) (hmany : d₀.length ≠ 1)
    (hlen : out.shape.lengths = reducedLengths in1.shape 0) (m : Data V) :
    reduceFlush false f 0 in1 out m = loop out.accessor ((indices out.shape.lengths).map fun idx =>
      ⟨out.shape.address idx, fun m => (visited in1.shape 0).foldl
        (fun v j => f v (m in1.accessor (source in1 0 idx j))) (m in1.accessor (source in1 0 idx 0))⟩) m := by
  have hcase : reduceCase in1.shape 0 = .columns d₀ d₁ := by simp [reduceCase, hd, Shape.dim, hmany]
  have hvisited : visited in1.shape 0 = List.range' 1 (d₀.length - 1) := by simp [visited, Stuck, Shape.dim, hd]
  have hsource : ∀ i j, source in1 0 [i] j = in1.shape.offset + i * d₁.stride + j * d₀.stride := by
    intro i j
    simp only [source, sourceIndex, Shape.address, hd, List.insertIdx_zero, List.length_cons, List.length_nil]
    simp only [Nat.reduceAdd, OfNat.ofNat_ne_one, if_false, displacement]
    omega
  have hshape : out.shape.lengths = [d₁.length] := by
    rw [hlen, reducedLengths, Shape.lengths, hd]
    rfl
  simp only [reduceFlush, hcase]
  rw [hshape, hvisited, indices_one, List.map_map]
  simp only [Function.comp_def, hsource, Nat.zero_mul, Nat.add_zero, address_one hshape]

theorem reduceFlush_rows {d₀ d₁ : ShapeDimension} (hd : in1.shape.dimensions = [d₀, d₁]) (hmany : d₁.length ≠ 1)
    (hlen : out.shape.lengths = reducedLengths in1.shape 1) (m : Data V) :
    reduceFlush false f 1 in1 out m = loop out.accessor ((indices out.shape.lengths).map fun idx =>
      ⟨out.shape.address idx, fun m => (visited in1.shape 1).foldl
        (fun v j => f v (m in1.accessor (source in1 1 idx j))) (m in1.accessor (source in1 1 idx 0))⟩) m := by
  have hcase : reduceCase in1.shape 1 = .rows d₀ d₁ := by simp [reduceCase, hd, Shape.dim, hmany]
  have hvisited : visited in1.shape 1 = strideLoop d₁ := by simp [visited, Stuck, strideLoop, Shape.dim, hd, hmany]
  have hsource : ∀ i j, source in1 1 [i] j = j * d₁.stride + (in1.shape.offset + i * d₀.stride) := by
    intro i j
    simp only [source, sourceIndex, Shape.address, hd, List.insertIdx_succ_cons, List.insertIdx_zero,
      List.length_cons, List.length_nil]
    simp only [Nat.reduceAdd, OfNat.ofNat_ne_one, if_false, displacement]
    omega
  have hshape : out.shape.lengths = [d₀.length] := by
    rw [hlen, reducedLengths, Shape.lengths, hd]
    rfl
  simp only [reduceFlush, hcase]
  rw [hshape, hvisited, indices_one, List.map_map]
  simp only [Function.comp_def, hsource, Nat.zero_mul, Nat.zero_add, address_one hshape]

/-- The special cases are one loop over the output. -/
theorem reduceFlush_short (haxis : axis < in1.shape.dimensions.length) (hshort : ¬ Accumulates in1.shape axis)
    (hlen : out.shape.lengths = reducedLengths in1.shape axis) (m : Data V) :
    reduceFlush false f axis in1 out m = loop out.accessor ((indices out.shape.lengths).map fun idx =>
      ⟨out.shape.address idx, fun m => (visited in1.shape axis).foldl
        (fun v j => f v (m in1.accessor (source in1 axis idx j))) (m in1.accessor (source in1 axis idx 0))⟩) m := by
  by_cases hcopy : (in1.shape.dim axis).length = 1 ∧ 1 < in1.shape.dimensions.length
  · have hvisited : visited in1.shape axis = [] := by simp [visited, hcopy.1]
    rw [reduceFlush_copy haxis hcopy.2 hcopy.1 hlen, hvisited]
    rfl
  · cases hd : in1.shape.dimensions with
    | nil =>
      rw [hd] at haxis
      exact absurd haxis (Nat.not_lt_zero axis)
    | cons d₀ ds =>
      cases ds with
      | nil =>
        obtain rfl : axis = 0 := by simpa [hd] using haxis
        exact reduceFlush_line hd hlen m
      | cons d₁ ds =>
        have hmany : (in1.shape.dim axis).length ≠ 1 := fun h => hcopy ⟨h, by simp [hd]⟩
        have hds : ds = [] := by
          by_contra hne
          have hpos := List.length_pos_iff.mpr hne
          apply hshort
          refine ⟨?_, hmany⟩
          simp only [hd, List.length_cons]
          omega
        subst hds
        have haxis' : axis < 2 := by simpa [hd] using haxis
        cases axis with
        | zero => exact reduceFlush_columns hd (by simpa [Shape.dim, hd] using hmany) hlen m
        | succ axis =>
          obtain rfl : axis = 0 := by omega
          exact reduceFlush_rows hd (by simpa [Shape.dim, hd] using hmany) hlen m

theorem reduceFlush_general (haxis : axis < in1.shape.dimensions.length) (hmany : Accumulates in1.shape axis)
    (hlen : out.shape.lengths = reducedLengths in1.shape axis) (m : Data V) :
    reduceFlush false f axis in1 out m = (List.range' 1 ((in1.shape.dim axis).length - 1)).foldl
      (fun m j => loop out.accessor ((indices out.shape.lengths).map fun idx => ⟨out.shape.address idx, fun m =>
        f (m out.accessor (out.shape.address idx)) (m in1.accessor (source in1 axis idx j))⟩) m)
      (loop out.accessor ((indices out.shape.lengths).map fun idx => ⟨out.shape.address idx, fun m =>
        m in1.accessor (source in1 axis idx 0)⟩) m) := by
  obtain ⟨hrank, hone⟩ := hmany
  have hne : in1.shape.dimensions.length ≠ 1 := by omega
  have hcase : reduceCase in1.shape axis = .general := by
    rw [reduceCase, if_neg fun h => hone h.1]
    · intro d _ hd
      simp [hd] at hrank
    · intro d₀ d₁ _ hd
      simp [hd] at hrank
    · intro d₀ d₁ _ hd
      simp [hd] at hrank
  have hsource : ∀ idx j, source in1 axis idx j = in1.shape.address (idx.insertIdx axis j) := by
    intro idx j
    rw [source, sourceIndex, if_neg hne]
  rw [reducedLengths, if_neg hne] at hlen
  have hout : axis ≤ out.shape.dimensions.length := by
    have := congrArg List.length hlen
    rw [Shape.lengths, List.length_map, List.length_eraseIdx, Shape.lengths, List.length_map, if_pos haxis] at this
    omega
  simp only [reduceFlush, hcase, unaryFlush, binaryFlush, Bool.false_eq_true, false_and, if_false]
  simp only [Shape.addresses_newAxis hout, Shape.addresses_slice haxis, out.shape.addresses_eq, ← hlen, List.zip_map',
    List.map_map, hsource]
  rfl

/-! ## Where the loop is right -/

theorem sourceIndex_mem (haxis : axis < in1.shape.dimensions.length) {idx : List ℕ}
    (hidx : idx ∈ indices (reducedLengths in1.shape axis)) {j : ℕ} (hj : j < (in1.shape.dim axis).length) :
    sourceIndex in1.shape axis idx j ∈ indices in1.shape.lengths := by
  rw [reducedLengths] at hidx
  rw [sourceIndex]
  split at hidx
  · rename_i hone
    obtain ⟨d, hd⟩ := List.length_eq_one_iff.mp hone
    obtain rfl : axis = 0 := by omega
    rw [if_pos hone, Shape.lengths, hd, List.map_singleton, indices_one]
    exact List.mem_map_of_mem (List.mem_range.mpr (by simpa [Shape.dim, hd] using hj))
  · rename_i hone
    have haxis' : axis < in1.shape.lengths.length := by rwa [Shape.lengths, List.length_map]
    rw [if_neg hone]
    apply mem_insertIdx haxis' hidx
    rw [Shape.dim, List.getD_eq_getElem _ _ haxis] at hj
    rw [List.getD_eq_getElem _ _ haxis']
    simpa [Shape.lengths] using hj

variable (haxis : axis < in1.shape.dimensions.length) (hlen : out.shape.lengths = reducedLengths in1.shape axis)
  (hapart : in1.accessor = out.accessor → ∀ i ∈ in1.shape.addresses, i ∉ out.shape.addresses)

include haxis hlen hapart

/-- The loops do not write what they are going to read. -/
theorem source_ne {idx idx' : List ℕ} (hidx : idx ∈ indices out.shape.lengths) (hidx' : idx' ∈ indices out.shape.lengths)
    {j : ℕ} (hj : j < (in1.shape.dim axis).length) :
    (in1.accessor, source in1 axis idx j) ≠ (out.accessor, out.shape.address idx') := by
  intro heq
  obtain ⟨ha, hi⟩ := Prod.mk.inj heq
  have hsource : source in1 axis idx j ∈ in1.shape.addresses :=
    Shape.address_mem (sourceIndex_mem haxis (hlen ▸ hidx) hj)
  exact hapart ha _ hsource (hi ▸ Shape.address_mem hidx')

omit hlen hapart in
theorem lt_of_mem_visited {j : ℕ} (hj : j ∈ visited in1.shape axis) : j < (in1.shape.dim axis).length := by
  have hpos := in1.dim_pos haxis
  rw [visited] at hj
  split at hj
  · cases hj
  · obtain ⟨k, hk, rfl⟩ := List.mem_range'.mp hj
    omega

/-- Each element of the output becomes the fold of the visited elements, and nothing else changes. -/
theorem reduceFlush_short_spec (hshort : ¬ Accumulates in1.shape axis) (hfree : OutputFree axis in1 out) (m : Data V) :
    (∀ idx ∈ indices out.shape.lengths, cells (reduceFlush false f axis in1 out m) (out.accessor, out.shape.address idx) =
      (visited in1.shape axis).foldl (fun v j => f v (m in1.accessor (source in1 axis idx j)))
        (m in1.accessor (source in1 axis idx 0))) ∧
    ∀ p, (∀ idx ∈ indices out.shape.lengths, (out.accessor, out.shape.address idx) ≠ p) →
      cells (reduceFlush false f axis in1 out m) p = cells m p := by
  let value := fun (w : Accessor × ℕ → V) idx => (visited in1.shape axis).foldl
    (fun v j => f v (w (in1.accessor, source in1 axis idx j))) (w (in1.accessor, source in1 axis idx 0))
  have hpos : 0 < (in1.shape.dim axis).length := in1.dim_pos haxis
  have hcongr : ∀ (w w' : Accessor × ℕ → V) (idx idx' : List ℕ), (∀ j < (in1.shape.dim axis).length,
      w (in1.accessor, source in1 axis idx j) = w' (in1.accessor, source in1 axis idx' j)) →
      value w idx = value w' idx' := by
    intro w w' idx idx' h
    dsimp only [value]
    rw [h 0 hpos]
    refine Reorder.foldl_congr _ _ _ (fun j hj v => ?_) _
    rw [h j (lt_of_mem_visited haxis hj)]
  have hconsistent : Elementwise.Consistent (fun idx => (out.accessor, out.shape.address idx)) value (indices out.shape.lengths) := by
    intro idx hidx idx' hidx' _
    constructor
    · intro w v
      refine hcongr _ _ _ _ fun j hj => Function.update_of_ne ?_ _ _
      exact source_ne haxis hlen hapart hidx' hidx hj
    · intro heq w
      refine hcongr _ _ _ _ fun j hj => ?_
      rw [hfree.2 idx hidx idx' hidx' (Prod.mk.inj heq).2 j hj]
  have hrun : cells (reduceFlush false f axis in1 out m) =
      run (fun idx => (out.accessor, out.shape.address idx)) value (indices out.shape.lengths) (cells m) := by
    rw [reduceFlush_short haxis hshort hlen, ← cells_loop]
    rfl
  rw [hrun]
  exact ⟨fun idx hidx => run_of_consistent hconsistent (nodup_indices _) (cells m) hidx, fun p hp => run_of_ne (cells m) hp⟩

/-- After `k` rounds of the general case. -/
theorem rounds_spec (hnodup : out.shape.addresses.Nodup) (m : Data V) {k : ℕ} (hk : k < (in1.shape.dim axis).length) :
    let m' := (List.range' 1 k).foldl
      (fun m j => loop out.accessor ((indices out.shape.lengths).map fun idx => ⟨out.shape.address idx, fun m =>
        f (m out.accessor (out.shape.address idx)) (m in1.accessor (source in1 axis idx j))⟩) m)
      (loop out.accessor ((indices out.shape.lengths).map fun idx => ⟨out.shape.address idx, fun m =>
        m in1.accessor (source in1 axis idx 0)⟩) m)
    (∀ idx ∈ indices out.shape.lengths, cells m' (out.accessor, out.shape.address idx) =
      foldFirst f (k + 1) fun j => m in1.accessor (source in1 axis idx j)) ∧
    ∀ p, (∀ idx ∈ indices out.shape.lengths, (out.accessor, out.shape.address idx) ≠ p) → cells m' p = cells m p := by
  rw [out.shape.addresses_eq] at hnodup
  have hplace : ∀ idx ∈ indices out.shape.lengths, ∀ idx' ∈ indices out.shape.lengths, idx ≠ idx' →
      (out.accessor, out.shape.address idx) ≠ (out.accessor, out.shape.address idx') := by
    intro idx hidx idx' hidx' hne heq
    exact hne (List.inj_on_of_nodup_map hnodup hidx hidx' (Prod.mk.inj heq).2)
  have hread : ∀ idx ∈ indices out.shape.lengths, ∀ j < (in1.shape.dim axis).length,
      ∀ idx' ∈ indices out.shape.lengths,
        (out.accessor, out.shape.address idx') ≠ (in1.accessor, source in1 axis idx j) :=
    fun idx hidx j hj idx' hidx' => (source_ne haxis hlen hapart hidx hidx' hj).symm
  induction k with
  | zero =>
    let value := fun (w : Accessor × ℕ → V) idx => w (in1.accessor, source in1 axis idx 0)
    have happly : Elementwise.Apart (fun idx => (out.accessor, out.shape.address idx)) value (indices out.shape.lengths) := by
      intro idx hidx idx' hidx' hne
      refine ⟨hplace idx hidx idx' hidx' hne, fun w v => ?_⟩
      exact Function.update_of_ne (hread idx' hidx' 0 hk idx hidx).symm _ _
    have hrun := cells_loop out.accessor (indices out.shape.lengths) out.shape.address value m
    rw [List.range'_zero, List.foldl_nil, show (fun idx => (⟨out.shape.address idx, fun m => m in1.accessor (source in1 axis idx 0)⟩ : Assign V)) =
      fun idx => ⟨out.shape.address idx, fun m => value (cells m) idx⟩ from rfl]
    dsimp only
    rw [hrun]
    exact ⟨fun idx hidx => run_of_mem happly (nodup_indices _) (cells m) hidx, fun p hp => run_of_ne (cells m) hp⟩
  | succ k ih =>
    obtain ⟨hvalue, hkeep⟩ := ih (Nat.lt_of_succ_lt hk)
    rw [List.range'_1_concat, List.foldl_append, List.foldl_cons, List.foldl_nil]
    dsimp only at hvalue hkeep ⊢
    generalize (List.range' 1 k).foldl _ _ = w at hvalue hkeep ⊢
    let value := fun (w : Accessor × ℕ → V) idx =>
      f (w (out.accessor, out.shape.address idx)) (w (in1.accessor, source in1 axis idx (1 + k)))
    have happly : Elementwise.Apart (fun idx => (out.accessor, out.shape.address idx)) value (indices out.shape.lengths) := by
      intro idx hidx idx' hidx' hne
      refine ⟨hplace idx hidx idx' hidx' hne, fun w v => ?_⟩
      dsimp only [value]
      rw [Function.update_of_ne (hplace idx hidx idx' hidx' hne).symm,
        Function.update_of_ne (hread idx' hidx' (1 + k) (by omega) idx hidx).symm]
    have hrun := cells_loop out.accessor (indices out.shape.lengths) out.shape.address value w
    rw [show (fun idx => (⟨out.shape.address idx, fun m => f (m out.accessor (out.shape.address idx))
        (m in1.accessor (source in1 axis idx (1 + k)))⟩ : Assign V)) =
      fun idx => ⟨out.shape.address idx, fun m => value (cells m) idx⟩ from rfl]
    refine ⟨fun idx hidx => ?_, fun p hp => ?_⟩
    · have hsame : cells w (in1.accessor, source in1 axis idx (1 + k)) = m in1.accessor (source in1 axis idx (1 + k)) :=
        hkeep _ (hread idx hidx (1 + k) (by omega))
      rw [hrun, run_of_mem happly (nodup_indices _) (cells w) hidx]
      dsimp only [value]
      rw [hvalue idx hidx, hsame, foldFirst, foldFirst, Nat.add_sub_cancel, Nat.add_sub_cancel, List.range'_1_concat,
        List.foldl_append]
      rfl
    · rw [hrun, run_of_ne (cells w) hp, hkeep p hp]

omit hlen hapart in
theorem accumulates_of_general (hcase : reduceCase in1.shape axis = .general) : Accumulates in1.shape axis := by
  have hmany : ¬ ((in1.shape.dim axis).length = 1 ∧ 1 < in1.shape.dimensions.length) := by
    intro hcopy
    have hcopy' : reduceCase in1.shape axis = .copy := if_pos hcopy
    rw [hcopy'] at hcase
    cases hcase
  have hrank : 2 < in1.shape.dimensions.length := by
    by_contra hle
    cases hd : in1.shape.dimensions with
    | nil => simp [hd] at haxis
    | cons d₀ ds =>
      cases ds with
      | nil =>
        obtain rfl : axis = 0 := by simpa [hd] using haxis
        simp [reduceCase, hd] at hcase
      | cons d₁ ds =>
        have hds : ds = [] := by
          rw [← List.length_eq_zero_iff]
          simp only [hd, List.length_cons] at hle
          omega
        subst hds
        have haxis' : axis < 2 := by simpa [hd] using haxis
        cases axis with
        | zero =>
          have hcolumns : reduceCase in1.shape 0 = .columns d₀ d₁ := by
            rw [hd] at hmany
            simp only [reduceCase, hd, if_neg hmany]
          rw [hcolumns] at hcase
          cases hcase
        | succ axis =>
          obtain rfl : axis = 0 := by omega
          have hrows : reduceCase in1.shape 1 = .rows d₀ d₁ := by
            rw [hd] at hmany
            simp only [reduceCase, hd, if_neg hmany]
          rw [hrows] at hcase
          cases hcase
  exact ⟨hrank, fun hone => hmany ⟨hone, by omega⟩⟩

omit haxis hlen hapart in
theorem exists_mem_addresses (x : NdArray) : ∃ i, i ∈ x.shape.addresses := by
  have hpos : 0 < x.shape.addresses.length := by
    rw [Shape.length_addresses]
    exact zero_lt_prod (by simpa [Shape.lengths] using x.positive)
  exact ⟨_, List.getElem_mem hpos⟩

/-- The kind of the accessors makes no difference. -/
theorem reduceFlush_eq_false (hfree : OutputFree axis in1 out) (dflt : Bool) (m : Data V) :
    reduceFlush dflt f axis in1 out m = reduceFlush false f axis in1 out m := by
  cases dflt with
  | false => rfl
  | true =>
    have hzero : out.accessor.size = 1 → ∀ i ∈ out.shape.addresses, i = 0 := by
      intro hsize i hi
      have := out.lt_size le_rfl hi
      omega
    apply reduceFlush_dflt f haxis
    · intro hrank
      rw [hlen, reducedLengths, if_neg hrank]
    · intro _ hsize he
      -- the only element would belong to both
      obtain ⟨i, hi⟩ := exists_mem_addresses in1
      obtain ⟨o, ho⟩ := exists_mem_addresses out
      have hi0 := in1.lt_size le_rfl hi
      have ho0 := hzero hsize o ho
      rw [he, hsize] at hi0
      obtain rfl : i = o := by omega
      exact absurd ho (hapart he i hi)
    · intro hcase hsize
      have hnodup := hfree.1 (accumulates_of_general haxis hcase)
      have hsub : out.shape.addresses ⊆ [0] := fun i hi => by simp [hzero hsize i hi]
      have hle := (List.subperm_of_subset hnodup hsub).length_le
      obtain ⟨o, ho⟩ := exists_mem_addresses out
      have hpos := List.length_pos_of_mem ho
      rw [Shape.length_addresses] at hle hpos
      simp only [List.length_cons, List.length_nil] at hle
      omega

theorem reduceFlush_right (hstuck : ¬ Stuck in1.shape axis) (hfree : OutputFree axis in1 out) (dflt : Bool) (m : Data V) :
    (∀ idx ∈ indices out.shape.lengths, reduceFlush dflt f axis in1 out m out.accessor (out.shape.address idx) =
      foldFirst f (in1.shape.dim axis).length fun j => m in1.accessor (source in1 axis idx j)) ∧
    ∀ a i, (a = out.accessor → i ∉ out.shape.addresses) → reduceFlush dflt f axis in1 out m a i = m a i := by
  rw [reduceFlush_eq_false haxis hlen hapart hfree]
  have houtside : ∀ a i, (a = out.accessor → i ∉ out.shape.addresses) → ∀ idx ∈ indices out.shape.lengths,
      (out.accessor, out.shape.address idx) ≠ (a, i) := by
    intro a i h idx hidx heq
    obtain ⟨rfl, rfl⟩ := Prod.mk.inj heq
    exact h rfl (Shape.address_mem hidx)
  by_cases hmany : Accumulates in1.shape axis
  · have hpos := in1.dim_pos haxis
    obtain ⟨hvalue, hkeep⟩ := rounds_spec (f := f) haxis hlen hapart (hfree.1 hmany) m (Nat.sub_one_lt hpos.ne')
    rw [reduceFlush_general haxis hmany hlen]
    refine ⟨fun idx hidx => ?_, fun a i h => hkeep _ (houtside a i h)⟩
    rw [Nat.sub_add_cancel hpos] at hvalue
    exact hvalue idx hidx
  · obtain ⟨hvalue, hkeep⟩ := reduceFlush_short_spec (f := f) haxis hlen hapart hmany hfree m
    rw [visited, if_neg hstuck] at hvalue
    exact ⟨hvalue, fun a i h => hkeep _ (houtside a i h)⟩

/-! ## Where it is wrong -/

omit haxis hlen hapart

/-- Concatenation shows what was folded. -/
theorem foldFirst_flatMap {α : Type} {n : ℕ} (hn : 0 < n) (x : ℕ → List α) :
    foldFirst (· ++ ·) n x = (List.range n).flatMap x := by
  obtain ⟨k, rfl⟩ := Nat.exists_eq_add_of_lt hn
  have hfold : ∀ k, (List.range' 1 k).foldl (fun v j => v ++ x j) (x 0) = (List.range (k + 1)).flatMap x := by
    intro k
    induction k with
    | zero => simp
    | succ k ih =>
      rw [List.range'_1_concat, List.foldl_append, ih, List.range_succ (n := k + 1), List.flatMap_append, Nat.add_comm 1 k]
      simp
  simpa [foldFirst] using hfold k

theorem foldFirst_append {n : ℕ} (hn : 0 < n) (x : ℕ → ℕ) :
    foldFirst (· ++ ·) n (fun j => [x j]) = (List.range n).map x := by
  rw [foldFirst_flatMap hn, List.map_eq_flatMap]

theorem foldFirst_count (n : ℕ) (x : ℕ → ℕ) : foldFirst (fun v _ => v + 1) n x = x 0 + (n - 1) := by
  have hfold : ∀ (l : List ℕ) (v : ℕ), l.foldl (fun v _ => v + 1) v = v + l.length := by
    intro l
    induction l with
    | nil => exact fun v => rfl
    | cons j l ih =>
      intro v
      rw [List.foldl_cons, ih, List.length_cons]
      omega
  rw [foldFirst, hfold, List.length_range']

/-- How often a loop that counts goes through an address. -/
theorem run_count {ι Loc : Type} [DecidableEq Loc] (o : ι → Loc) (order : List ι) (w : Loc → ℕ) (p : Loc) :
    run o (fun w i => w (o i) + 1) order w p = w p + order.countP fun i => decide (o i = p) := by
  induction order generalizing w with
  | nil => rfl
  | cons i order ih =>
    rw [run_cons, ih, List.countP_cons]
    by_cases hp : o i = p
    · subst hp
      rw [Function.update_self, decide_eq_true rfl, if_pos rfl]
      omega
    · rw [Function.update_of_ne (Ne.symm hp), decide_eq_false hp, if_neg Bool.false_ne_true, Nat.add_zero]

theorem sources_eq_of_right (hpos : 0 < (in1.shape.dim axis).length) (h : ReduceRight axis in1 out) {idx idx' : List ℕ}
    (hidx : idx ∈ indices out.shape.lengths) (hidx' : idx' ∈ indices out.shape.lengths)
    (heq : out.shape.address idx = out.shape.address idx') {j : ℕ} (hj : j < (in1.shape.dim axis).length) :
    source in1 axis idx j = source in1 axis idx' j := by
  -- concatenation shows which elements were folded
  have hvalue := (h (List ℕ) false (· ++ ·) fun _ i => [i]).1
  have hlists := (hvalue idx hidx).symm.trans ((congrArg _ heq).trans (hvalue idx' hidx'))
  rw [foldFirst_append hpos, foldFirst_append hpos] at hlists
  exact List.map_inj_left.mp hlists j (List.mem_range.mpr hj)

section
variable (haxis : axis < in1.shape.dimensions.length) (hlen : out.shape.lengths = reducedLengths in1.shape axis)

include haxis hlen

theorem not_stuck_of_right (hapart : in1.accessor = out.accessor → ∀ i ∈ in1.shape.addresses, i ∉ out.shape.addresses)
    (h : ReduceRight axis in1 out) : ¬ Stuck in1.shape axis := by
  intro hstuck
  have hpos := in1.dim_pos haxis
  have hmany : ¬ Accumulates in1.shape axis := fun hmany => absurd hmany.1 (Nat.not_lt.mpr hstuck.1)
  have hfree : OutputFree axis in1 out := ⟨fun hacc => absurd hacc hmany, fun idx hidx idx' hidx' heq j hj =>
    sources_eq_of_right hpos h hidx hidx' heq hj⟩
  obtain ⟨i, hi⟩ := exists_mem_addresses out
  rw [out.shape.addresses_eq] at hi
  obtain ⟨idx, hidx, -⟩ := List.mem_map.mp hi
  have hvalue := (h ℕ false (fun v _ => v + 1) fun _ _ => 0).1 idx hidx
  have hcode := (reduceFlush_short_spec (f := fun v _ => v + 1) haxis hlen hapart hmany hfree fun _ _ => 0).1 idx hidx
  rw [foldFirst_count] at hvalue
  rw [visited, if_pos hstuck] at hcode
  have hone := hstuck.2.2.2
  have : 0 = 0 + ((in1.shape.dim axis).length - 1) := hcode.symm.trans hvalue
  omega

/-- The general case that counts. -/
theorem reduceFlush_count (hmany : Accumulates in1.shape axis) (i : ℕ) :
    cells (reduceFlush false (fun v _ => v + 1) axis in1 out fun _ _ => 0) (out.accessor, i) =
      ((in1.shape.dim axis).length - 1) * out.shape.addresses.count i := by
  let place := fun idx => (out.accessor, out.shape.address idx)
  have hcount : ((indices out.shape.lengths).countP fun idx => decide ((out.accessor, out.shape.address idx) =
      (out.accessor, i))) = out.shape.addresses.count i := by
    rw [out.shape.addresses_eq, List.count_eq_countP, List.countP_map]
    refine List.countP_congr fun idx _ => ?_
    simp
  have hrounds : ∀ (l : List ℕ) (m : Data ℕ), cells (l.foldl (fun m _ => loop out.accessor
      ((indices out.shape.lengths).map fun idx => ⟨out.shape.address idx, fun m =>
        cells m (place idx) + 1⟩) m) m) (out.accessor, i) =
      cells m (out.accessor, i) + l.length * out.shape.addresses.count i := by
    intro l
    induction l with
    | nil => simp
    | cons j l ih =>
      intro m
      rw [List.foldl_cons, ih, cells_loop out.accessor (indices out.shape.lengths) out.shape.address
        (fun w idx => w (place idx) + 1), run_count, hcount, List.length_cons, Nat.succ_mul]
      omega
  have hstart : ∀ p, cells (loop out.accessor ((indices out.shape.lengths).map fun idx => ⟨out.shape.address idx, fun m =>
      cells m (in1.accessor, source in1 axis idx 0)⟩) fun _ _ => 0) p = 0 := by
    intro p
    rw [cells_loop out.accessor (indices out.shape.lengths) out.shape.address
      (fun w idx => w (in1.accessor, source in1 axis idx 0))]
    exact run_forall (P := (· = 0)) (fun w idx hw => hw _) (fun _ => rfl) p
  rw [reduceFlush_general haxis hmany hlen]
  refine (hrounds _ _).trans ?_
  rw [List.length_range']
  refine (congrArg (· + _) (hstart _)).trans (Nat.zero_add _)

theorem nodup_of_right (h : ReduceRight axis in1 out) (hmany : Accumulates in1.shape axis) : out.shape.addresses.Nodup := by
  have hpos := in1.dim_pos haxis
  rw [List.nodup_iff_count_eq_one]
  intro i hi
  have hmem := hi
  rw [out.shape.addresses_eq] at hmem
  obtain ⟨idx, hidx, rfl⟩ := List.mem_map.mp hmem
  have hvalue := (h ℕ false (fun v _ => v + 1) fun _ _ => 0).1 idx hidx
  have hcode := reduceFlush_count haxis hlen hmany (out.shape.address idx)
  rw [foldFirst_count] at hvalue
  have heq : ((in1.shape.dim axis).length - 1) * out.shape.addresses.count (out.shape.address idx) =
      ((in1.shape.dim axis).length - 1) * 1 := by
    rw [Nat.mul_one]
    exact hcode.symm.trans (hvalue.trans (Nat.zero_add _))
  have hone := hmany.2
  exact Nat.eq_of_mul_eq_mul_left (by omega) heq

end

/-- A reduction is the fold along the axis exactly if its loop is not bounded by a stride that is zero and
the output has an element of its own for every value. -/
theorem reduceFlush_right_iff (axis : ℕ) (in1 out : NdArray) (haxis : axis < in1.shape.dimensions.length)
    (hlen : out.shape.lengths = reducedLengths in1.shape axis)
    (hapart : in1.accessor = out.accessor → ∀ i ∈ in1.shape.addresses, i ∉ out.shape.addresses) :
    ReduceRight axis in1 out ↔ ¬ Stuck in1.shape axis ∧ OutputFree axis in1 out := by
  constructor
  · intro h
    refine ⟨not_stuck_of_right haxis hlen hapart h, nodup_of_right haxis hlen h, ?_⟩
    intro idx hidx idx' hidx' heq j hj
    exact sources_eq_of_right (in1.dim_pos haxis) h hidx hidx' heq hj
  · rintro ⟨hstuck, hfree⟩ V dflt f m
    exact reduceFlush_right haxis hlen hapart hstuck hfree dflt m

end

/-- Two rows of three elements. -/
def matrixView : NdArray where
  accessor := ⟨0, 6⟩
  shape := ⟨0, [⟨2, 3⟩, ⟨3, 1⟩]⟩
  positive := by decide
  fits := by decide

def pairTarget : NdArray where
  accessor := ⟨1, 4⟩
  shape := ⟨0, [⟨2, 3⟩]⟩
  positive := by decide
  fits := by decide

theorem reduceFlush_right_rows : ReduceRight 1 matrixView pairTarget :=
  (reduceFlush_right_iff 1 matrixView pairTarget (by decide) (by decide) (by decide)).mpr ⟨by decide, by decide⟩

/-- One element, shown three times. -/
def repeatedView : NdArray where
  accessor := ⟨0, 1⟩
  shape := ⟨0, [⟨3, 0⟩]⟩
  positive := by decide
  fits := by decide

def singleTarget : NdArray where
  accessor := ⟨1, 1⟩
  shape := ⟨0, [⟨1, 1⟩]⟩
  positive := by decide
  fits := by decide

theorem not_reduceFlush_right_repeated : ¬ ReduceRight 0 repeatedView singleTarget := by
  intro h
  have := (h ℕ false (· + ·) fun _ _ => 1).1 [0] (by decide)
  revert this
  decide

end Bohrium.NumCil
