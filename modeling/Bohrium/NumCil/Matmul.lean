import Bohrium.NumCil.Reduction

/-! # Matrix products

`Matmul_Entry` and its loops. The right operand is walked through `Transpose`, which begins at the first
element of the accessor; a product of one element walks both operands along the rows. -/
namespace Bohrium.NumCil
open Strided Walk Elementwise
set_option autoImplicit false

/-! ## Entry -/

/-- `Subview(Range.NewAxis, axis)`. -/
def NdArray.newAxis (x : NdArray) (axis : ℕ) (h : axis ≤ x.shape.dimensions.length) : NdArray where
  accessor := x.accessor
  shape := x.shape.newAxis axis
  positive d hd := by
    obtain rfl | hd := List.eq_or_mem_of_mem_insertIdx hd
    · exact Nat.one_pos
    · exact x.positive d hd
  fits := (Shape.space_newAxis _ h).trans_le x.fits

/-- A vector as a matrix of one column. -/
def NdArray.matrix (x : NdArray) : NdArray :=
  if x.shape.dimensions.length < 2 then x.newAxis x.shape.dimensions.length le_rfl else x

/-- `Matmul_Entry` with an output, `none` if it throws. -/
def matmulEntry {V : Type} (add mul : V → V → V) (in1 in2 out : NdArray) (m : Data V) : Option (Data V) :=
  if in1.shape.dimensions.length ≠ 2 then none
  else if 2 < in2.shape.dimensions.length then none
  else if (in1.shape.dim 1).length ≠ (in2.shape.dim 0).length then none
  else if out.shape.dimensions.length ≠ 2 ∨ (out.shape.dim 0).length ≠ (in1.shape.dim 0).length ∨
      (out.shape.dim 1).length ≠ (in2.matrix.shape.dim 1).length then none
  else some (matmulFlush add mul in1 in2.matrix out m)

/-- Operands of a product. The output shares no element with the inputs. -/
structure Multiplicable (in1 in2 out : NdArray) : Prop where
  rank1 : in1.shape.dimensions.length = 2
  rank2 : in2.shape.dimensions.length = 1 ∨ in2.shape.dimensions.length = 2
  inner : (in1.shape.dim 1).length = (in2.shape.dim 0).length
  lengths : out.shape.lengths = [(in1.shape.dim 0).length, (in2.matrix.shape.dim 1).length]
  apart1 : in1.accessor = out.accessor → ∀ i ∈ in1.shape.addresses, i ∉ out.shape.addresses
  apart2 : in2.accessor = out.accessor → ∀ i ∈ in2.shape.addresses, i ∉ out.shape.addresses

/-- Every element of the output becomes the left fold of the products. -/
def MatmulRight (in1 in2 out : NdArray) : Prop :=
  ∀ (V : Type) (add mul : V → V → V) (m : Data V), ∃ m', matmulEntry add mul in1 in2 out m = some m' ∧
    ∀ i < (in1.shape.dim 0).length, ∀ j < (in2.matrix.shape.dim 1).length,
      m' out.accessor (out.shape.address [i, j]) = foldFirst add (in1.shape.dim 1).length fun l =>
        mul (m in1.accessor (in1.shape.address [i, l])) (m in2.accessor (in2.matrix.shape.address [l, j]))

/-- The `l`th factors of an element of the output. -/
def leftFactor (in1 : NdArray) (idx : List ℕ) (l : ℕ) : ℕ := in1.shape.address [idx.getD 0 0, l]

def rightFactor (in2 : NdArray) (idx : List ℕ) (l : ℕ) : ℕ := in2.matrix.shape.address [l, idx.getD 1 0]

/-- Elements of the output at one address are to hold one value. -/
def SameFactors (in1 in2 out : NdArray) : Prop :=
  ∀ idx ∈ indices out.shape.lengths, ∀ idx' ∈ indices out.shape.lengths, out.shape.address idx = out.shape.address idx' →
    ∀ l < (in1.shape.dim 1).length, leftFactor in1 idx l = leftFactor in1 idx' l ∧ rightFactor in2 idx l = rightFactor in2 idx' l

/-- A product of one element is right along a row as well as along a column; the others are where no offset
is lost. -/
def MatmulFits (in1 in2 out : NdArray) : Prop :=
  if out.shape.elements = 1 then
    (in1.shape.dim 1).length = 1 ∨ (in2.matrix.shape.dim 0).stride = (in2.matrix.shape.dim 1).stride
  else in2.shape.offset = 0 ∧ SameFactors in1 in2 out

instance (in1 in2 out : NdArray) : Decidable (SameFactors in1 in2 out) :=
  inferInstanceAs (Decidable (∀ idx ∈ _, ∀ idx' ∈ _, _ → ∀ l < _, _ ∧ _))

instance (in1 in2 out : NdArray) : Decidable (MatmulFits in1 in2 out) := by
  unfold MatmulFits
  infer_instance

namespace NdArray

variable (x : NdArray)

@[simp] theorem accessor_matrix : x.matrix.accessor = x.accessor := by
  unfold matrix
  split <;> rfl

@[simp] theorem offset_matrix : x.matrix.shape.offset = x.shape.offset := by
  unfold matrix
  split <;> rfl

theorem addresses_matrix : x.matrix.shape.addresses = x.shape.addresses := by
  unfold matrix
  split
  · exact Shape.addresses_newAxis le_rfl
  · rfl

theorem rank_matrix (h : x.shape.dimensions.length = 1 ∨ x.shape.dimensions.length = 2) :
    x.matrix.shape.dimensions.length = 2 := by
  unfold matrix
  split
  · show (x.shape.dimensions.insertIdx _ _).length = 2
    rw [List.length_insertIdx_of_le_length le_rfl]
    omega
  · omega

theorem dim_zero_matrix (h : x.shape.dimensions.length = 1 ∨ x.shape.dimensions.length = 2) :
    x.matrix.shape.dim 0 = x.shape.dim 0 := by
  unfold matrix
  split
  · obtain ⟨d, hd⟩ := List.length_eq_one_iff.mp (show x.shape.dimensions.length = 1 by omega)
    simp [newAxis, Shape.newAxis, Shape.dim, hd]
  · rfl

end NdArray

theorem dimensions_two {sh : Shape} (h : sh.dimensions.length = 2) : sh.dimensions = [sh.dim 0, sh.dim 1] := by
  obtain ⟨d₀, d₁, hd⟩ := List.length_eq_two.mp h
  simp [Shape.dim, hd]

theorem lengths_two {sh : Shape} (h : sh.dimensions.length = 2) : sh.lengths = [(sh.dim 0).length, (sh.dim 1).length] := by
  rw [Shape.lengths, dimensions_two h]
  rfl

theorem address_two {sh : Shape} (h : sh.dimensions.length = 2) (i j : ℕ) :
    sh.address [i, j] = sh.offset + i * (sh.dim 0).stride + j * (sh.dim 1).stride := by
  rw [Shape.address, dimensions_two h]
  simp only [displacement]
  omega

theorem mem_indices_two {n k i j : ℕ} : [i, j] ∈ indices [n, k] ↔ i < n ∧ j < k := by
  simp [mem_indices]

theorem indices_two (n k : ℕ) : indices [n, k] = (List.range n).flatMap fun i => (List.range k).map fun j => [i, j] := by
  rw [indices]
  apply List.flatMap_congr
  intro i _
  rw [indices_one, List.map_map]
  rfl

section
variable {V : Type} {add mul : V → V → V} {in1 in2 out : NdArray} (h : Multiplicable in1 in2 out)

include h

theorem Multiplicable.rank_out : out.shape.dimensions.length = 2 := by
  have := congrArg List.length h.lengths
  simpa [Shape.lengths] using this

theorem Multiplicable.dims_out : (out.shape.dim 0).length = (in1.shape.dim 0).length ∧
    (out.shape.dim 1).length = (in2.matrix.shape.dim 1).length := by
  have hlengths := h.lengths
  rw [lengths_two h.rank_out] at hlengths
  simpa using hlengths

theorem matmulEntry_eq (m : Data V) : matmulEntry add mul in1 in2 out m = some (matmulFlush add mul in1 in2.matrix out m) := by
  have hrank2 : ¬2 < in2.shape.dimensions.length := by
    have := h.rank2
    omega
  have hout := h.dims_out
  simp [matmulEntry, h.rank1, hrank2, h.inner, h.rank_out, hout]

theorem Multiplicable.mem_in1 {i l : ℕ} (hi : i < (in1.shape.dim 0).length) (hl : l < (in1.shape.dim 1).length) :
    in1.shape.address [i, l] ∈ in1.shape.addresses := by
  apply Shape.address_mem
  rw [lengths_two h.rank1]
  exact mem_indices_two.mpr ⟨hi, hl⟩

theorem Multiplicable.mem_in2 {l j : ℕ} (hl : l < (in1.shape.dim 1).length) (hj : j < (in2.matrix.shape.dim 1).length) :
    in2.matrix.shape.address [l, j] ∈ in2.shape.addresses := by
  rw [← in2.addresses_matrix]
  apply Shape.address_mem
  rw [lengths_two (in2.rank_matrix h.rank2), in2.dim_zero_matrix h.rank2, ← h.inner]
  exact mem_indices_two.mpr ⟨hl, hj⟩

theorem Multiplicable.right_iff : MatmulRight in1 in2 out ↔ ∀ (V : Type) (add mul : V → V → V) (m : Data V),
    ∀ idx ∈ indices out.shape.lengths, matmulFlush add mul in1 in2.matrix out m out.accessor (out.shape.address idx) =
      foldFirst add (in1.shape.dim 1).length fun l =>
        mul (m in1.accessor (leftFactor in1 idx l)) (m in2.accessor (rightFactor in2 idx l)) := by
  unfold MatmulRight
  refine forall_congr' fun V => forall_congr' fun add => forall_congr' fun mul => forall_congr' fun m => ?_
  rw [matmulEntry_eq h]
  simp only [Option.some.injEq, exists_eq_left']
  rw [h.lengths]
  constructor
  · intro hright idx hidx
    obtain ⟨i, j, rfl⟩ := List.length_eq_two.mp (mem_indices.mp hidx).length_eq
    obtain ⟨hi, hj⟩ := mem_indices_two.mp hidx
    exact hright i hi j hj
  · intro hright i hi j hj
    exact hright [i, j] (mem_indices_two.mpr ⟨hi, hj⟩)

/-! ## One element -/

theorem Multiplicable.dims_of_one (hone : out.shape.elements = 1) :
    (in1.shape.dim 0).length = 1 ∧ (in2.matrix.shape.dim 1).length = 1 := by
  rw [Shape.elements, h.lengths] at hone
  have hprod : (in1.shape.dim 0).length * (in2.matrix.shape.dim 1).length = 1 := by simpa using hone
  exact ⟨Nat.dvd_one.mp (Dvd.intro _ hprod), Nat.dvd_one.mp (Dvd.intro_left _ hprod)⟩

/-- The dot product walks along the row of the right operand. -/
theorem Multiplicable.combineAndAggregate_eq (hone : out.shape.elements = 1) (m : Data V) :
    combineAndAggregate add mul in1 in2.matrix m = foldFirst add (in1.shape.dim 1).length fun l =>
      mul (m in1.accessor (in1.shape.address [0, l]))
        (m in2.accessor (in2.shape.offset + l * (in2.matrix.shape.dim 1).stride)) := by
  obtain ⟨hn, -⟩ := h.dims_of_one hone
  have hpos : 0 < (in1.shape.dim 1).length := in1.dim_pos (by rw [h.rank1]; exact Nat.one_lt_two)
  obtain ⟨k, hk⟩ := Nat.exists_eq_add_of_lt hpos
  simp only [combineAndAggregate, hn, hk, foldFirst, address_two h.rank1, NdArray.accessor_matrix, NdArray.offset_matrix]
  simp only [List.range_one, List.flatMap_cons, List.flatMap_nil, List.append_nil, Nat.zero_mul, Nat.add_zero, Nat.zero_add,
    Nat.add_sub_cancel]
  rw [List.range_succ_eq_map, List.map_cons, List.tail_cons, List.range'_eq_map_range, List.foldl_map, List.foldl_map,
    List.foldl_map]
  simp only [Nat.succ_eq_add_one, Nat.add_comm 1, Nat.zero_mul, Nat.add_zero]

theorem Multiplicable.matmulFlush_one (hone : out.shape.elements = 1) (m : Data V) :
    matmulFlush add mul in1 in2.matrix out m out.accessor (out.shape.address [0, 0]) =
      foldFirst add (in1.shape.dim 1).length fun l => mul (m in1.accessor (in1.shape.address [0, l]))
        (m in2.accessor (in2.shape.offset + l * (in2.matrix.shape.dim 1).stride)) := by
  rw [matmulFlush, if_pos hone, h.combineAndAggregate_eq hone, address_two h.rank_out]
  simp [Data.set]

/-! ## Several elements -/

/-- What the loops assign to an element of the output. -/
def product (add mul : V → V → V) (in1 in2 : NdArray) (w : Accessor × ℕ → V) (idx : List ℕ) : V :=
  foldFirst add (in1.shape.dim 1).length fun l => mul (w (in1.accessor, leftFactor in1 idx l))
    (w (in2.accessor, idx.getD 1 0 * (in2.matrix.shape.dim 1).stride + l * (in2.matrix.shape.dim 0).stride))

theorem Multiplicable.cells_matmulFlush (hmany : out.shape.elements ≠ 1) (m : Data V) :
    cells (matmulFlush add mul in1 in2.matrix out m) =
      run (fun idx => (out.accessor, out.shape.address idx)) (product add mul in1 in2) (indices out.shape.lengths)
        (cells m) := by
  obtain ⟨hn, hk⟩ := h.dims_out
  rw [matmulFlush, if_neg hmany, ← cells_loop, h.lengths, indices_two, List.map_flatMap, matmulLoop, hn, hk]
  simp only [List.map_map, Function.comp_def, address_two h.rank_out, product, leftFactor, address_two h.rank1, foldFirst,
    NdArray.accessor_matrix]
  rfl

theorem Multiplicable.rightFactor_eq {idx : List ℕ} (l : ℕ) : rightFactor in2 idx l = in2.shape.offset +
    (idx.getD 1 0 * (in2.matrix.shape.dim 1).stride + l * (in2.matrix.shape.dim 0).stride) := by
  rw [rightFactor, address_two (in2.rank_matrix h.rank2), NdArray.offset_matrix]
  omega

theorem Multiplicable.product_congr {w w' : Accessor × ℕ → V} {idx idx' : List ℕ}
    (heq : ∀ l < (in1.shape.dim 1).length, w (in1.accessor, leftFactor in1 idx l) = w' (in1.accessor, leftFactor in1 idx' l) ∧
      w (in2.accessor, idx.getD 1 0 * (in2.matrix.shape.dim 1).stride + l * (in2.matrix.shape.dim 0).stride) =
        w' (in2.accessor, idx'.getD 1 0 * (in2.matrix.shape.dim 1).stride + l * (in2.matrix.shape.dim 0).stride)) :
    product add mul in1 in2 w idx = product add mul in1 in2 w' idx' := by
  have hpos : 0 < (in1.shape.dim 1).length := in1.dim_pos (by rw [h.rank1]; exact Nat.one_lt_two)
  simp only [product, foldFirst]
  rw [(heq 0 hpos).1, (heq 0 hpos).2]
  apply Reorder.foldl_congr
  intro l hl v
  obtain ⟨k, hk, rfl⟩ := List.mem_range'.mp hl
  have hlt : 1 + 1 * k < (in1.shape.dim 1).length := by omega
  rw [(heq _ hlt).1, (heq _ hlt).2]

theorem Multiplicable.mem_left {idx : List ℕ} (hidx : idx ∈ indices out.shape.lengths) {l : ℕ}
    (hl : l < (in1.shape.dim 1).length) : leftFactor in1 idx l ∈ in1.shape.addresses := by
  rw [h.lengths] at hidx
  obtain ⟨i, j, rfl⟩ := List.length_eq_two.mp (mem_indices.mp hidx).length_eq
  exact h.mem_in1 (mem_indices_two.mp hidx).1 hl

theorem Multiplicable.mem_right {idx : List ℕ} (hidx : idx ∈ indices out.shape.lengths) {l : ℕ}
    (hl : l < (in1.shape.dim 1).length) : rightFactor in2 idx l ∈ in2.shape.addresses := by
  rw [h.lengths] at hidx
  obtain ⟨i, j, rfl⟩ := List.length_eq_two.mp (mem_indices.mp hidx).length_eq
  exact h.mem_in2 hl (mem_indices_two.mp hidx).2

/-- Without an offset the loops read the operands, and none of what they write. -/
theorem Multiplicable.consistent (hoffset : in2.shape.offset = 0) (hsame : SameFactors in1 in2 out) :
    Elementwise.Consistent (fun idx => (out.accessor, out.shape.address idx)) (product add mul in1 in2)
      (indices out.shape.lengths) := by
  intro idx hidx idx' hidx' _
  have hout : out.shape.address idx ∈ out.shape.addresses := Shape.address_mem hidx
  refine ⟨fun w v => h.product_congr fun l hl => ⟨?_, ?_⟩, fun heq w => h.product_congr fun l hl => ?_⟩
  · apply Function.update_of_ne
    intro heq
    obtain ⟨hacc, hadd⟩ := Prod.mk.inj heq
    exact h.apart1 hacc _ (h.mem_left hidx' hl) (hadd ▸ hout)
  · apply Function.update_of_ne
    intro heq
    obtain ⟨hacc, hadd⟩ := Prod.mk.inj heq
    have hmem := h.mem_right hidx' hl
    rw [h.rightFactor_eq, hoffset, Nat.zero_add, hadd] at hmem
    exact h.apart2 hacc _ hmem hout
  · obtain ⟨hleft, hright⟩ := hsame idx hidx idx' hidx' (Prod.mk.inj heq).2 l hl
    rw [h.rightFactor_eq, h.rightFactor_eq] at hright
    rw [hleft, Nat.add_left_cancel hright]
    exact ⟨rfl, rfl⟩

theorem Multiplicable.right (hfits : MatmulFits in1 in2 out) : MatmulRight in1 in2 out := by
  rw [h.right_iff]
  intro V add mul m idx hidx
  rw [MatmulFits] at hfits
  split at hfits
  · next hone =>
    obtain ⟨hn, hk⟩ := h.dims_of_one hone
    obtain rfl : idx = [0, 0] := by
      rw [h.lengths, hn, hk] at hidx
      simpa [indices] using hidx
    rw [h.matmulFlush_one hone]
    obtain hinner | hstride := hfits
    · rw [hinner, foldFirst, foldFirst]
      simp [h.rightFactor_eq, leftFactor]
    · simp [h.rightFactor_eq, leftFactor, hstride]
  · next hmany =>
    obtain ⟨hoffset, hsame⟩ := hfits
    have hcell := congrFun (@Multiplicable.cells_matmulFlush V add mul in1 in2 out h hmany m) (out.accessor, out.shape.address idx)
    rw [run_of_consistent (h.consistent hoffset hsame) (nodup_indices _) _ hidx] at hcell
    simp only [h.rightFactor_eq, hoffset, Nat.zero_add]
    exact hcell

end

/-! ## Where it is wrong -/

/-- Both factors of every term, one after the other. -/
theorem foldFirst_pairs {α : Type} {n : ℕ} (hn : 0 < n) {a b a' b' : ℕ → α}
    (heq : foldFirst (· ++ ·) n (fun l => [a l] ++ [b l]) = foldFirst (· ++ ·) n fun l => [a' l] ++ [b' l]) :
    ∀ l < n, a l = a' l ∧ b l = b' l := by
  have hmap : ∀ a b : ℕ → α, (fun l => [a l] ++ [b l]) = fun l => [true, false].map fun c => if c then a l else b l := by
    intro a b
    funext l
    rfl
  rw [foldFirst_flatMap hn, foldFirst_flatMap hn, hmap, hmap] at heq
  have hinj := flatMap_map_inj heq
  intro l hl
  exact ⟨by simpa using hinj l (List.mem_range.mpr hl) true (by simp),
    by simpa using hinj l (List.mem_range.mpr hl) false (by simp)⟩

theorem foldFirst_left {V : Type} (n : ℕ) (x : ℕ → V) : foldFirst (fun v _ => v) n x = x 0 := by
  have hfold : ∀ (l : List ℕ) (v : V), l.foldl (fun v _ => v) v = v := by
    intro l
    induction l with
    | nil => exact fun v => rfl
    | cons j l ih => exact ih
  exact hfold _ _

section
variable {in1 in2 out : NdArray} (h : Multiplicable in1 in2 out)

include h

theorem Multiplicable.inner_pos : 0 < (in1.shape.dim 1).length := in1.dim_pos (by rw [h.rank1]; exact Nat.one_lt_two)

theorem Multiplicable.stride_eq_of_right (hright : MatmulRight in1 in2 out) (hone : out.shape.elements = 1)
    (hmany : (in1.shape.dim 1).length ≠ 1) : (in2.matrix.shape.dim 0).stride = (in2.matrix.shape.dim 1).stride := by
  obtain ⟨hn, hk⟩ := h.dims_of_one hone
  have hzero : [0, 0] ∈ indices out.shape.lengths := by
    rw [h.lengths, hn, hk]
    simp [indices]
  have hlists := h.right_iff.mp hright (List (Accessor × ℕ)) (· ++ ·) (· ++ ·) (fun a i => [(a, i)]) [0, 0] hzero
  rw [h.matmulFlush_one hone] at hlists
  have hpos := h.inner_pos
  have hsecond := (foldFirst_pairs hpos hlists 1 (by omega)).2
  rw [h.rightFactor_eq] at hsecond
  simp only [List.getD_cons_succ, List.getD_cons_zero, Nat.zero_mul, Nat.one_mul, Nat.zero_add] at hsecond
  have := (Prod.mk.inj hsecond).2
  omega

theorem Multiplicable.sameFactors_of_right (hright : MatmulRight in1 in2 out) : SameFactors in1 in2 out := by
  intro idx hidx idx' hidx' heq l hl
  have hvalue := h.right_iff.mp hright (List (Accessor × ℕ)) (· ++ ·) (· ++ ·) fun a i => [(a, i)]
  have hlists := (hvalue idx hidx).symm.trans ((congrArg _ heq).trans (hvalue idx' hidx'))
  obtain ⟨hleft, hright⟩ := foldFirst_pairs h.inner_pos hlists l hl
  exact ⟨(Prod.mk.inj hleft).2, (Prod.mk.inj hright).2⟩

/-- The first factor from the right operand, in the last column: nothing the loops read is that element, and they
do not write it. -/
theorem Multiplicable.offset_eq_of_right (hright : MatmulRight in1 in2 out) (hmany : out.shape.elements ≠ 1) :
    in2.shape.offset = 0 := by
  by_contra hoffset
  have hn : 0 < (in1.shape.dim 0).length := in1.dim_pos (by rw [h.rank1]; exact Nat.zero_lt_two)
  have hk : 0 < (in2.matrix.shape.dim 1).length :=
    in2.matrix.dim_pos (by rw [in2.rank_matrix h.rank2]; exact Nat.one_lt_two)
  let k := (in2.matrix.shape.dim 1).length - 1
  have hidx : [0, k] ∈ indices out.shape.lengths := by
    rw [h.lengths]
    exact mem_indices_two.mpr ⟨hn, Nat.sub_one_lt hk.ne'⟩
  let c := rightFactor in2 [0, k] 0
  have hc : c ∈ in2.shape.addresses := h.mem_right hidx h.inner_pos
  have hceq : c = in2.shape.offset + k * (in2.matrix.shape.dim 1).stride := by
    simp [c, h.rightFactor_eq]
  have hother : ∀ idx ∈ indices out.shape.lengths, (out.accessor, out.shape.address idx) ≠ (in2.accessor, c) := by
    intro idx hidx heq
    obtain ⟨hacc, hadd⟩ := Prod.mk.inj heq
    exact h.apart2 hacc.symm c hc (hadd ▸ Shape.address_mem hidx)
  let m : Data ℕ := fun a i => if (a, i) = (in2.accessor, c) then 1 else 0
  have hvalue := h.right_iff.mp hright ℕ (fun v _ => v) (fun _ v => v) m [0, k] hidx
  rw [foldFirst_left] at hvalue
  have hrun := congrFun (@Multiplicable.cells_matmulFlush ℕ (fun v _ => v) (fun _ v => v) in1 in2 out h hmany m)
    (out.accessor, out.shape.address [0, k])
  have hkeep : ∀ p ≠ (in2.accessor, c), run (fun idx => (out.accessor, out.shape.address idx))
      (product (fun v _ => v) (fun _ v => v) in1 in2) (indices out.shape.lengths) (cells m) p = 0 := by
    refine run_invariant (P := fun w => ∀ p ≠ (in2.accessor, c), w p = 0) (fun w idx hidx' hw p hp => ?_) fun p hp => ?_
    · by_cases heq : p = (out.accessor, out.shape.address idx)
      · rw [heq, Function.update_self, product, foldFirst_left]
        apply hw
        intro hread
        have hcolumn : idx.getD 1 0 ≤ k := by
          rw [h.lengths] at hidx'
          obtain ⟨i, j, rfl⟩ := List.length_eq_two.mp (mem_indices.mp hidx').length_eq
          have := (mem_indices_two.mp hidx').2
          simp only [List.getD_cons_succ, List.getD_cons_zero, k]
          omega
        have hle : idx.getD 1 0 * (in2.matrix.shape.dim 1).stride ≤ k * (in2.matrix.shape.dim 1).stride :=
          Nat.mul_le_mul_right _ hcolumn
        have := (Prod.mk.inj hread).2
        omega
      · rw [Function.update_of_ne heq]
        exact hw p hp
    · exact if_neg hp
  rw [hkeep _ (hother _ hidx)] at hrun
  have hread : m in2.accessor c = 1 := if_pos rfl
  have hzero : (0 : ℕ) = m in2.accessor c := hrun.symm.trans hvalue
  omega

end

/-- A matrix product is right exactly if its loops begin where the right operand does and the output has an element
of its own for every value; and, for a product of one element, if the right operand has the same elements along its
row as along its column. -/
theorem matmul_right_iff (in1 in2 out : NdArray) (h : Multiplicable in1 in2 out) :
    MatmulRight in1 in2 out ↔ MatmulFits in1 in2 out := by
  refine ⟨fun hright => ?_, h.right⟩
  rw [MatmulFits]
  split
  · next hone => exact or_iff_not_imp_left.mpr fun hmany => h.stride_eq_of_right hright hone hmany
  · next hmany => exact ⟨h.offset_eq_of_right hright hmany, h.sameFactors_of_right hright⟩

/-- Three rows of two elements. -/
def columnsView : NdArray where
  accessor := ⟨2, 6⟩
  shape := ⟨0, [⟨3, 2⟩, ⟨2, 1⟩]⟩
  positive := by decide
  fits := by decide

def squareTarget : NdArray where
  accessor := ⟨3, 4⟩
  shape := ⟨0, [⟨2, 2⟩, ⟨2, 1⟩]⟩
  positive := by decide
  fits := by decide

theorem matmul_right_square : MatmulRight matrixView columnsView squareTarget :=
  (matmul_right_iff matrixView columnsView squareTarget
    ⟨by decide, by decide, by decide, by decide, by decide, by decide⟩).mpr (by decide)

def rowView : NdArray where
  accessor := ⟨0, 2⟩
  shape := ⟨0, [⟨1, 2⟩, ⟨2, 1⟩]⟩
  positive := by decide
  fits := by decide

def vectorView : NdArray where
  accessor := ⟨2, 3⟩
  shape := ⟨1, [⟨2, 1⟩]⟩
  positive := by decide
  fits := by decide

def scalarTarget : NdArray where
  accessor := ⟨3, 1⟩
  shape := ⟨0, [⟨1, 1⟩, ⟨1, 1⟩]⟩
  positive := by decide
  fits := by decide

/-- `[1, 2]` times the vector `(2, 3)`: the loop takes the first element of the vector twice. -/
theorem not_matmul_right_vector : Multiplicable rowView vectorView scalarTarget ∧ ¬ MatmulRight rowView vectorView scalarTarget := by
  refine ⟨⟨by decide, by decide, by decide, by decide, by decide, by decide⟩, fun hright => ?_⟩
  obtain ⟨m', hm', hvalue⟩ := hright ℕ (· + ·) (· * ·) fun _ i => i + 1
  have hfive := hvalue 0 (by decide) 0 (by decide)
  obtain rfl := Option.some.inj hm'
  revert hfive
  decide

end Bohrium.NumCil
