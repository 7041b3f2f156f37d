import Bohrium.Library.CInt
import Bohrium.Library.Strided
import Bohrium.Core.Opcode

/-! # Base arrays and views

`bh_base`, `bh_view` and the functions of `core/bh.cpp` that compare views. A view's `shape` and
`stride` arrays, cut at `ndim`, are one list of dimensions; a view without a base is a constant. -/
namespace Bohrium
open CInt Strided
set_option autoImplicit false

/-- A base array: its address, element type and number of elements. -/
structure BhBase where
  addr : ℕ
  type : BhType
  nelem : ℕ
  deriving DecidableEq, Repr

instance instLawfulBEqOptionBase : LawfulBEq (Option BhBase) := inferInstance

/-- A view; `base` is the pointer to the base array, `none` the null pointer of a constant. -/
structure BhView where
  base : Option BhBase
  start : ℤ
  dims : List Dim
  deriving DecidableEq, Repr

namespace BhView

def ndim (v : BhView) : ℕ := v.dims.length

def shape (v : BhView) : List ℕ := v.dims.map Dim.shape

/-- The offset of the element with index tuple `idx`. -/
def offset (v : BhView) (idx : List ℕ) : ℤ := v.start + dot v.dims idx

/-- The offsets a view addresses, in row-major order. -/
def offsets (v : BhView) : List ℤ := Strided.offsets v.start v.dims

theorem offsets_eq_map (v : BhView) : v.offsets = (indices v.shape).map v.offset := rfl

/-- The elements of the view lie inside its base. -/
def InBase (v : BhView) : Prop := ∃ b, v.base = some b ∧ ∀ o ∈ v.offsets, 0 ≤ o ∧ o < b.nelem

/-- Two views share a location: they have one base and an offset in common. -/
def Overlap (u v : BhView) : Prop :=
  u.base.isSome ∧ u.base = v.base ∧ ∃ o, o ∈ u.offsets ∧ o ∈ v.offsets

instance (u v : BhView) : Decidable (Overlap u v) :=
  inferInstanceAs (Decidable (u.base.isSome ∧ u.base = v.base ∧ ∃ o ∈ u.offsets, o ∈ v.offsets))

end BhView

/-! ## Counting elements -/

/-- `bh_nelements`. -/
def bhNelements (v : BhView) : ℕ := v.shape.prod

/-- `bh_nelements_nbcast`: dimensions with a positive stride only. -/
def bhNelementsNbcast (v : BhView) : ℕ :=
  ((v.dims.filter fun d => 0 < d.stride).map Dim.shape).prod

/-- `bh_is_scalar`. -/
def bhIsScalar (v : BhView) : Bool := bhNelements v == 1

/-- `bh_is_constant`. -/
def bhIsConstant (v : BhView) : Bool := v.base.isNone

theorem length_offsets (v : BhView) : v.offsets.length = bhNelements v :=
  offsets_length v.start v.dims

theorem not_bhIsConstant {v : BhView} {b : BhBase} (h : v.base = some b) : bhIsConstant v = false := by
  simp [bhIsConstant, h]

/-! ## Simplification -/

/-- `while (view.shape[i] == 1 && i < view.ndim-1) ++i`. -/
def skipOnes : List Dim → List Dim
  | d :: e :: ds => if d.shape = 1 then skipOnes (e :: ds) else d :: e :: ds
  | ds => ds

/-- The loop of `bh_view_simplify`: `fin` are the finished result dimensions, `cur` the one at
`res.ndim`. -/
def simplifyLoop (fin : List Dim) (cur : Dim) : List Dim → List Dim
  | [] => if fin = [] ∨ 1 < cur.shape then fin ++ [cur] else fin
  | d :: ds =>
    if d.shape = 0 then [⟨0, ((fin ++ [cur]).headD cur).stride⟩]
    else if d.shape = 1 then simplifyLoop fin cur ds
    else if d.shape * d.stride = cur.stride then simplifyLoop fin ⟨cur.shape * d.shape, d.stride⟩ ds
    else simplifyLoop (fin ++ [cur]) d ds

/-- `bh_view_simplify`. A view has at least one dimension; for an empty list the source reads
uninitialised memory and the model leaves the view as it is. -/
def bhViewSimplify (v : BhView) : BhView :=
  match skipOnes v.dims with
  | [] => v
  | d :: ds => { v with dims := simplifyLoop [] d ds }

theorem offsets_skipOnes (s : ℤ) (ds : List Dim) :
    Strided.offsets s (skipOnes ds) = Strided.offsets s ds := by
  induction ds using skipOnes.induct with
  | case1 d e ds h ih => rw [skipOnes, if_pos h, ih, offsets_one _ d _ h]
  | case2 d e ds h => rw [skipOnes, if_neg h]
  | case3 ds h => cases ds with
    | nil => rfl
    | cons d ds => cases ds with
      | nil => rfl
      | cons e ds => exact absurd rfl (h d e ds)

theorem offsets_simplifyLoop (s : ℤ) (fin : List Dim) (cur : Dim) (ds : List Dim)
    (hcur : fin = [] ∨ 1 < cur.shape) :
    Strided.offsets s (simplifyLoop fin cur ds) = Strided.offsets s (fin ++ cur :: ds) := by
  induction ds generalizing fin cur with
  | nil => rw [simplifyLoop, if_pos hcur]
  | cons d ds ih =>
    rw [simplifyLoop]
    split_ifs with h0 h1 hm
    · rw [offsets_zero s [_] ⟨_, List.mem_singleton_self _, rfl⟩,
        offsets_zero s _ ⟨d, by simp, h0⟩]
    · rw [ih fin cur hcur]
      refine (offsets_append_congr (fun t => ?_) fin s).symm
      rw [offsets_cons, offsets_cons]
      exact List.flatMap_congr fun i _ => offsets_one _ d ds h1
    · have hpos : fin = [] ∨ 1 < cur.shape * d.shape := by
        refine hcur.imp_right fun hc => ?_
        calc 1 < cur.shape := hc
          _ ≤ cur.shape * d.shape := Nat.le_mul_of_pos_right _ (Nat.pos_of_ne_zero h0)
      rw [ih fin ⟨cur.shape * d.shape, d.stride⟩ hpos]
      exact offsets_append_congr (fun t => offsets_merge t cur d ds hm) fin s
    · rw [ih (fin ++ [cur]) d (Or.inr (by omega)), List.append_assoc, List.singleton_append]

/-- Simplification keeps the row-major sequence of offsets. -/
theorem offsets_bhViewSimplify (v : BhView) : (bhViewSimplify v).offsets = v.offsets := by
  unfold bhViewSimplify
  have hskip := offsets_skipOnes v.start v.dims
  cases hd : skipOnes v.dims with
  | nil => rfl
  | cons d ds =>
    rw [hd] at hskip
    simp only [BhView.offsets]
    rw [offsets_simplifyLoop v.start [] d ds (Or.inl rfl), List.nil_append, hskip]

theorem base_bhViewSimplify (v : BhView) : (bhViewSimplify v).base = v.base := by
  unfold bhViewSimplify
  split <;> rfl

/-! ## Comparing views -/

/-- `bh_view_aligned`; a constant is aligned with everything. -/
def bhViewAligned (a b : BhView) : Bool :=
  bhIsConstant a || bhIsConstant b || bhViewSimplify a == bhViewSimplify b

/-- Aligned arrays address one sequence of locations. -/
theorem bhViewAligned_spec {a b : BhView} (h : bhViewAligned a b = true)
    (ha : bhIsConstant a = false) (hb : bhIsConstant b = false) :
    a.base = b.base ∧ a.offsets = b.offsets := by
  have heq : bhViewSimplify a = bhViewSimplify b := by simpa [bhViewAligned, ha, hb] using h
  refine ⟨?_, ?_⟩
  · rw [← base_bhViewSimplify a, heq, base_bhViewSimplify]
  · rw [← offsets_bhViewSimplify a, heq, offsets_bhViewSimplify]

/-- Aligned arrays of one shape have the same offset at every index. -/
theorem bhViewAligned_offset {a b : BhView} (h : bhViewAligned a b = true)
    (ha : bhIsConstant a = false) (hb : bhIsConstant b = false) (hs : a.shape = b.shape)
    {idx : List ℕ} (hidx : idx ∈ indices a.shape) : a.offset idx = b.offset idx := by
  have hoff := (bhViewAligned_spec h ha hb).2
  rw [BhView.offsets_eq_map, BhView.offsets_eq_map, ← hs] at hoff
  exact List.map_inj_left.mp hoff idx hidx

end Bohrium
