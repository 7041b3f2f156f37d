import Bohrium.Library.Strided
import Bohrium.NumCil.Kernels

/-! # Elements of a view by their index tuples

A loop goes through the addresses of a view one after the other; here each address belongs to an index
tuple, also in the views that the operations make of another one. -/
namespace Bohrium.NumCil
open Strided
set_option autoImplicit false

/-- How far an index tuple lies behind the offset. -/
def displacement : List ShapeDimension → List ℕ → ℕ
  | d :: ds, i :: idx => i * d.stride + displacement ds idx
  | _, _ => 0

/-- The element at an index tuple. -/
def Shape.address (sh : Shape) (idx : List ℕ) : ℕ := sh.offset + displacement sh.dimensions idx

variable {ds : List ShapeDimension} {idx : List ℕ}

theorem Shape.length_dim (sh : Shape) (i : ℕ) : (sh.dim i).length = sh.lengths.getD i 1 := by
  simp only [Shape.dim, Shape.lengths, List.getD_eq_getElem?_getD, List.getElem?_map]
  cases sh.dimensions[i]? <;> rfl

theorem addressesFrom_eq (off : ℕ) (ds : List ShapeDimension) :
    addressesFrom off ds = (indices (ds.map (·.length))).map fun idx => off + displacement ds idx := by
  induction ds generalizing off with
  | nil => rfl
  | cons d ds ih =>
    rw [addressesFrom, List.map_cons, indices, List.map_flatMap]
    refine List.flatMap_congr fun i _ => ?_
    rw [ih, List.map_map]
    refine List.map_congr_left fun idx _ => ?_
    simp only [Function.comp_apply, displacement]
    omega

theorem Shape.addresses_eq (sh : Shape) : sh.addresses = (indices sh.lengths).map sh.address :=
  addressesFrom_eq sh.offset sh.dimensions

theorem Shape.address_mem {sh : Shape} (hidx : idx ∈ indices sh.lengths) : sh.address idx ∈ sh.addresses := by
  rw [sh.addresses_eq]
  exact List.mem_map_of_mem hidx

theorem addressesFrom_one (off stride : ℕ) (ds : List ShapeDimension) :
    addressesFrom off (⟨1, stride⟩ :: ds) = addressesFrom off ds := by
  simp [addressesFrom]

theorem addressesFrom_modify (off axis : ℕ) (ds : List ShapeDimension) :
    addressesFrom off (ds.modify axis fun d => ⟨1, d.stride⟩) = addressesFrom off (ds.eraseIdx axis) := by
  induction ds generalizing off axis with
  | nil => cases axis <;> rfl
  | cons d ds ih =>
    cases axis with
    | zero => rw [List.modify_zero_cons, addressesFrom_one, List.eraseIdx_cons_zero]
    | succ axis =>
      rw [List.modify_succ_cons, List.eraseIdx_cons_succ, addressesFrom, addressesFrom]
      exact List.flatMap_congr fun i _ => ih _ _

theorem addressesFrom_insertIdx (off axis : ℕ) (haxis : axis ≤ ds.length) :
    addressesFrom off (ds.insertIdx axis ⟨1, 0⟩) = addressesFrom off ds := by
  induction ds generalizing off axis with
  | nil =>
    obtain rfl : axis = 0 := by simpa using haxis
    exact addressesFrom_one off 0 []
  | cons d ds ih =>
    cases axis with
    | zero => exact addressesFrom_one off 0 _
    | succ axis =>
      rw [List.insertIdx_succ_cons, addressesFrom, addressesFrom]
      exact List.flatMap_congr fun i _ => ih _ axis (Nat.le_of_succ_le_succ haxis)

theorem displacement_insertIdx {axis : ℕ} (haxis : axis < ds.length) (hlen : idx.length + 1 = ds.length) (j : ℕ) :
    displacement ds (idx.insertIdx axis j) =
      j * (ds.getD axis ⟨1, 0⟩).stride + displacement (ds.eraseIdx axis) idx := by
  induction ds generalizing axis idx with
  | nil => exact absurd haxis (Nat.not_lt_zero _)
  | cons d ds ih =>
    cases axis with
    | zero => rfl
    | succ axis =>
      cases idx with
      | nil =>
        simp only [List.length_cons, List.length_nil] at haxis hlen
        omega
      | cons i idx =>
        rw [List.insertIdx_succ_cons, displacement, ih (Nat.lt_of_succ_lt_succ haxis) (Nat.succ.inj hlen),
          List.eraseIdx_cons_succ, displacement, List.getD_cons_succ]
        omega

namespace Shape

variable {sh : Shape} {axis : ℕ}

theorem lengths_removeAxis (sh : Shape) (axis : ℕ) : (sh.removeAxis axis).lengths = sh.lengths.eraseIdx axis :=
  (List.eraseIdx_map ..).symm

theorem address_insertIdx (haxis : axis < sh.dimensions.length) (hidx : idx ∈ indices (sh.lengths.eraseIdx axis)) (j : ℕ) :
    sh.address (idx.insertIdx axis j) = (sh.removeAxis axis).address idx + j * (sh.dim axis).stride := by
  have hlen : idx.length + 1 = sh.dimensions.length := by
    rw [(mem_indices.mp hidx).length_eq, List.length_eraseIdx_of_lt (by simpa [lengths] using haxis), lengths,
      List.length_map]
    omega
  rw [address, displacement_insertIdx haxis hlen, address]
  dsimp only [removeAxis, dim]
  omega

theorem addresses_slice (haxis : axis < sh.dimensions.length) (j : ℕ) : (sh.slice axis j).addresses =
    (indices (sh.lengths.eraseIdx axis)).map fun idx => sh.address (idx.insertIdx axis j) := by
  rw [addresses, slice, addressesFrom_modify, addressesFrom_eq, ← List.eraseIdx_map]
  refine List.map_congr_left fun idx hidx => ?_
  rw [address_insertIdx haxis hidx, address]
  dsimp only [removeAxis]
  omega

theorem addresses_removeAxis (haxis : axis < sh.dimensions.length) : (sh.removeAxis axis).addresses =
    (indices (sh.lengths.eraseIdx axis)).map fun idx => sh.address (idx.insertIdx axis 0) := by
  rw [addresses_eq, lengths_removeAxis]
  refine List.map_congr_left fun idx hidx => ?_
  rw [address_insertIdx haxis hidx]
  omega

theorem addresses_newAxis (haxis : axis ≤ sh.dimensions.length) : (sh.newAxis axis).addresses = sh.addresses :=
  addressesFrom_insertIdx sh.offset axis haxis

end Shape

/-- The element at an index tuple of a view lies in its accessor. -/
theorem NdArray.address_lt (x : NdArray) (hidx : idx ∈ indices x.shape.lengths) : x.shape.address idx < x.accessor.size :=
  x.lt_size le_rfl (Shape.address_mem hidx)

end Bohrium.NumCil
