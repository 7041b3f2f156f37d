import Bohrium.NumCil.Broadcast

/-! # Subviews

`Range` and `NdArray.Subview`. The lengths and offsets are integers, as the constructor of `Shape` checks them
only at the end. -/
namespace Bohrium.NumCil
open Strided Layout
set_option autoImplicit false

/-! ## Ranges -/

structure Range where
  first : ℤ
  last : ℤ
  stride : ℤ
  initialized : Bool
  singleElement : Bool
  newDimension : Bool
  deriving DecidableEq, Repr

namespace Range

def all : Range := ⟨0, 0, 0, false, false, false⟩

def newAxis : Range := ⟨0, 0, 0, true, false, true⟩

def el (element : ℤ) : Range := ⟨element, element, 1, true, true, false⟩

/-- `new Range(first, last, stride)`. -/
def strided (first last stride : ℤ) : Range := ⟨first, last, stride, true, false, false⟩

def slice (first last : ℤ) : Range := strided first last 1

end Range

/-- `new Shape(dimensions, offset)`, `none` if it throws. -/
def Shape.make (dimensions : List (ℤ × ℤ)) (offset : ℤ) : Option Shape :=
  if dimensions ≠ [] ∧ (∀ d ∈ dimensions, 0 < d.1 ∧ 0 ≤ d.2) ∧ 0 ≤ offset then
    some ⟨offset.toNat, dimensions.map fun d => ⟨d.1.toNat, d.2.toNat⟩⟩
  else none

/-- `Dimensions[dim]`, `none` if it throws. -/
def Shape.dim? (sh : Shape) (dim : ℕ) : Option ShapeDimension := sh.dimensions[dim]?

/-- `range.Last` as the index of the last element. -/
def Range.lastIndex (range : Range) (d : Option ShapeDimension) (first : ℤ) : Option ℤ :=
  if ¬range.initialized then d.map fun d => (d.length : ℤ) - 1
  else if range.singleElement then some first
  else if range.last ≤ 0 then d.map fun d => (d.length : ℤ) - 1 + range.last
  else some (range.last - 1)

/-- The length that a dimension has in the subview. -/
def Range.extent (length : ℕ) (first last stride : ℤ) : ℤ :=
  (if last * stride > length - 1 then ((length : ℤ) - 1).tdiv stride else last) - first + 1

/-- `Subview(range, dim, removeIfSingleEl)`, `none` if it throws. -/
def NdArray.subviewRange (x : NdArray) (range : Range) (dim : ℕ) (removeIfSingleEl : Bool) : Option NdArray :=
  let d := x.shape.dim? dim
  (if range.first < 0 then d.map fun d => (d.length : ℤ) + range.first else some range.first).bind fun first =>
  (if dim = x.shape.dimensions.length then some (x.shape.space : ℤ)
    else d.map fun d => (x.shape.offset : ℤ) + first * d.stride).bind fun offset =>
  if range.initialized ∧ range.newDimension then x.reshape (x.shape.newAxis dim)
  else (range.lastIndex d first).bind fun last =>
    let stride := if range.initialized then range.stride else 1
    let pairs := x.shape.dimensions.map fun d => ((d.length : ℤ), (d.stride : ℤ))
    let dimensions :=
      if range.singleElement ∧ removeIfSingleEl then pairs.eraseIdx dim
      else x.shape.dimensions.zipIdx.map fun p =>
        if p.2 = dim then (Range.extent p.1.length first last stride, stride * p.1.stride) else (p.1.length, p.1.stride)
    (Shape.make dimensions offset).bind x.reshape

/-! ## What the ranges select -/

section
variable {x : NdArray} {dim : ℕ}

theorem subviewRange_newAxis (hdim : dim ≤ x.shape.dimensions.length) :
    x.subviewRange .newAxis dim false = x.reshape (x.shape.newAxis dim) := by
  have hnew : Range.newAxis.initialized = true ∧ Range.newAxis.newDimension = true := ⟨rfl, rfl⟩
  unfold NdArray.subviewRange
  dsimp only
  rw [if_neg (by decide), Option.bind_some]
  obtain heq | hlt := hdim.eq_or_lt
  · rw [if_pos heq, Option.bind_some, if_pos hnew]
  · rw [if_neg hlt.ne, Shape.dim?, List.getElem?_eq_getElem hlt, Option.map_some, Option.bind_some, if_pos hnew]

/-- `Dimensions[dim]` throws. -/
theorem subviewRange_of_rank_lt {range : Range} (hdim : x.shape.dimensions.length < dim) (b : Bool) :
    x.subviewRange range dim b = none := by
  unfold NdArray.subviewRange
  dsimp only
  rw [Shape.dim?, List.getElem?_eq_none hdim.le]
  simp only [if_neg hdim.ne', Option.map_none, Option.bind_none, Option.bind_fun_none]

/-- Dimension `dim` cut to the elements `first`, …, `first + length - 1`. -/
def Shape.cut (sh : Shape) (dim first length : ℕ) : Shape :=
  ⟨sh.offset + first * (sh.dim dim).stride, sh.dimensions.modify dim fun d => ⟨length, d.stride⟩⟩

theorem make_cast {ds : List ShapeDimension} (hne : ds ≠ []) (hpos : ∀ d ∈ ds, 0 < d.length) (offset : ℕ) :
    Shape.make (ds.map fun d => ((d.length : ℤ), (d.stride : ℤ))) offset = some ⟨offset, ds⟩ := by
  rw [Shape.make, if_pos, Int.toNat_natCast, List.map_map]
  · congr 2
    exact List.map_id'' (fun d => rfl) ds
  · refine ⟨by simpa using hne, ?_, by omega⟩
    intro p hp
    obtain ⟨d, hd, rfl⟩ := List.mem_map.mp hp
    have := hpos d hd
    dsimp only
    omega

theorem map_zipIdx_modify {α β : Type} (l : List α) (dim : ℕ) (f : α → α) (g : α → β) :
    (l.zipIdx.map fun p => if p.2 = dim then g (f p.1) else g p.1) = (l.modify dim f).map g := by
  apply List.ext_getElem
  · simp
  · intro i hi hi'
    simp only [List.length_map, List.length_zipIdx] at hi
    simp only [List.getElem_map, List.getElem_zipIdx, List.getElem_modify, Nat.zero_add]
    split
    · next h => rw [if_pos h.symm]
    · next h => rw [if_neg (Ne.symm h)]

theorem shape_modify_pos {length : ℕ} (hlength : 0 < length) :
    ∀ d ∈ x.shape.dimensions.modify dim fun d => ⟨length, d.stride⟩, 0 < d.length := by
  intro d hd
  obtain ⟨i, hi, rfl⟩ := List.getElem_of_mem hd
  rw [List.getElem_modify]
  split
  · exact hlength
  · exact x.positive _ (List.getElem_mem _)

/-- A range of the elements `first`, …, `last`. -/
theorem subviewRange_cut {range : Range} {first length : ℕ} (hdim : dim < x.shape.dimensions.length) (hlength : 0 < length)
    (hfit : first + length ≤ (x.shape.dim dim).length) (hinit : range.initialized = true) (hnew : range.newDimension = false)
    (hfirst : range.first = first) (hstride : range.stride = 1)
    (hlast : if range.singleElement then length = 1 else range.last = first + length) :
    x.subviewRange range dim false = x.reshape (x.shape.cut dim first length) := by
  have hget : x.shape.dim dim = x.shape.dimensions[dim] := List.getD_eq_getElem _ _ hdim
  have hindex : range.lastIndex (some x.shape.dimensions[dim]) first = some ((first : ℤ) + length - 1) := by
    rw [Range.lastIndex, if_neg (by simp [hinit])]
    split at hlast
    · next hsingle =>
      rw [if_pos hsingle, hlast]
      simp
    · next hsingle =>
      rw [if_neg hsingle, if_neg (by omega), hlast]
  unfold NdArray.subviewRange
  dsimp only
  rw [hfirst, if_neg (by omega), Option.bind_some, if_neg hdim.ne, Shape.dim?, List.getElem?_eq_getElem hdim, Option.map_some,
    Option.bind_some, if_neg (by simp [hnew]), hindex, Option.bind_some, if_neg (by simp), hinit, hstride]
  have hmap : (x.shape.dimensions.zipIdx.map fun p : ShapeDimension × ℕ =>
      if p.2 = dim then (Range.extent p.1.length first (first + length - 1) 1, 1 * (p.1.stride : ℤ))
      else ((p.1.length : ℤ), (p.1.stride : ℤ))) =
      (x.shape.dimensions.modify dim fun d => ⟨length, d.stride⟩).map fun d => ((d.length : ℤ), (d.stride : ℤ)) := by
    rw [← map_zipIdx_modify]
    apply List.map_congr_left
    intro p hp
    split
    · next h =>
      have hp := List.mem_zipIdx' hp
      have hlen : p.1 = x.shape.dimensions[dim] := by simp only [hp.2, h]
      rw [hget, ← hlen] at hfit
      rw [Range.extent, if_neg (by omega), one_mul]
      congr 1
      show (first : ℤ) + length - 1 - first + 1 = length
      omega
    · rfl
  have hcast : ((x.shape.offset : ℤ) + first * (x.shape.dimensions[dim]).stride) =
      ((x.shape.offset + first * (x.shape.dim dim).stride : ℕ) : ℤ) := by
    rw [hget]
    push_cast
    rfl
  rw [if_pos rfl, hmap, hcast, make_cast ?_ (shape_modify_pos hlength), Option.bind_some]
  · rfl
  · rw [← List.length_pos_iff, List.length_modify]
    omega

theorem subviewRange_el (hdim : dim < x.shape.dimensions.length) {j : ℕ} (hj : j < (x.shape.dim dim).length) :
    x.subviewRange (.el j) dim false = x.reshape (x.shape.cut dim j 1) :=
  subviewRange_cut hdim Nat.one_pos hj rfl rfl rfl rfl rfl

theorem subviewRange_slice (hdim : dim < x.shape.dimensions.length) {first length : ℕ} (hlength : 0 < length)
    (hfit : first + length ≤ (x.shape.dim dim).length) :
    x.subviewRange (.slice first (first + length)) dim false = x.reshape (x.shape.cut dim first length) :=
  subviewRange_cut hdim hlength hfit rfl rfl rfl rfl rfl

end

end Bohrium.NumCil
