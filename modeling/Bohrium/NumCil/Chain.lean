import Bohrium.NumCil.Repeat

/-! # Chains of views

`Subview` with an element or with ranges and `Transpose`, one after the other, against the index maps that they
stand for. -/
namespace Bohrium.NumCil
open Strided
set_option autoImplicit false

/-! ## The operations -/

/-- `Subview(element)`, `none` if it throws. -/
def NdArray.subviewElement (x : NdArray) (element : ℤ) : Option NdArray :=
  (x.shape.dim? 0).bind fun d =>
  let element := if element < 0 then (d.length : ℤ) + element else element
  if element < 0 ∨ (d.length : ℤ) < element then none else
  (x.shape.at? [element.toNat]).bind fun pos =>
  if x.shape.dimensions.length = 1 then (Shape.make [(1, (x.shape.space : ℤ) - pos)] pos).bind x.reshape
  else (Shape.make (x.shape.dimensions.tail.map fun d => ((d.length : ℤ), (d.stride : ℤ))) pos).bind x.reshape

/-- The dimensions that stay when the single elements are collapsed. -/
def uncollapsed (ranges : List Range) (dimensions : List ShapeDimension) : List ShapeDimension :=
  (dimensions.zipIdx.filter fun p => ¬(ranges.getD p.2 .all).singleElement).map Prod.fst

/-- `Subview(ranges, collapse)`, `none` if it throws. -/
def NdArray.subviewRanges (x : NdArray) (ranges : List Range) (collapse : Bool) : Option NdArray :=
  if ranges = [] then some x else
  ((List.range ranges.length).foldlM (fun (v : NdArray) i => v.subviewRange (ranges.getD i .all) i false) x).bind fun v =>
  if ¬collapse then some v else
  if uncollapsed ranges v.shape.dimensions = [] then
    (v.shape.at? (List.replicate v.shape.dimensions.length 0)).bind fun pos => v.reshape ⟨pos, [⟨1, 1⟩]⟩
  else v.reshape ⟨v.shape.offset, uncollapsed ranges v.shape.dimensions⟩

/-- `Transpose()`. An array of one dimension is made anew from the whole data. -/
def NdArray.transpose (x : NdArray) : Option NdArray :=
  if x.shape.dimensions.length = 1 then NdArray.make x.accessor (plainShape [x.accessor.size])
  else x.reshape ⟨0, x.shape.dimensions.reverse⟩

/-! ## What ranges stand for -/

/-- A range that keeps elements of a dimension. -/
inductive Keep
  | all
  | el (i : ℤ)
  | strided (first last stride : ℤ)
  deriving DecidableEq, Repr

inductive Pick
  | newAxis
  | keep (k : Keep)
  deriving DecidableEq, Repr

def Keep.range : Keep → Range
  | .all => .all
  | .el i => .el i
  | .strided first last stride => .strided first last stride

def Pick.range : Pick → Range
  | .newAxis => .newAxis
  | .keep k => k.range

/-- An index that is counted from the end if it is negative. -/
def fromEnd (length : ℕ) (i : ℤ) : ℤ := if i < 0 then length + i else i

/-- The end of a range; zero is the end of the dimension. -/
def stopOf (length : ℕ) (last : ℤ) : ℤ := if last ≤ 0 then length + last else last

/-- The indices that are kept. -/
def Keep.positions (length : ℕ) : Keep → List ℕ
  | .all => List.range length
  | .el i => [(fromEnd length i).toNat]
  | .strided first last stride => (List.range length).filter fun (k : ℕ) =>
      fromEnd length first ≤ k ∧ (k : ℤ) < stopOf length last ∧ ((k : ℤ) - fromEnd length first) % stride = 0

/-- The element is one of the dimension, and the range keeps at least one. -/
def Keep.Valid (length : ℕ) : Keep → Prop
  | .all => True
  | .el i => 0 ≤ fromEnd length i ∧ fromEnd length i < length
  | .strided first last stride => 1 ≤ stride ∧ (Keep.strided first last stride).positions length ≠ []

/-- The clamping rule takes the stride into account only if it applies. -/
def Keep.Handled (length : ℕ) : Keep → Prop
  | .all => True
  | .el _ => True
  | .strided first last stride => 0 ≤ fromEnd length first ∧
      if (stopOf length last - 1) * stride ≤ length - 1 then stride = 1 ∨ stopOf length last - 1 = fromEnd length first
      else ((length : ℤ) - 1) / stride - fromEnd length first =
        (min (stopOf length last - 1) (length - 1) - fromEnd length first) / stride

def Keep.first (length : ℕ) : Keep → ℕ
  | .all => 0
  | .el i => (fromEnd length i).toNat
  | .strided first _ _ => (fromEnd length first).toNat

def Keep.stride : Keep → ℕ
  | .all => 1
  | .el _ => 1
  | .strided _ _ stride => stride.toNat

/-! ## One range -/

theorem positions_strided {length : ℕ} {first last stride : ℤ} (hstride : 1 ≤ stride) (hfirst : 0 ≤ fromEnd length first)
    (hne : (Keep.strided first last stride).positions length ≠ []) :
    (Keep.strided first last stride).positions length =
      (List.range ((min (stopOf length last - 1) (length - 1) - fromEnd length first) / stride + 1).toNat).map
        fun i => (fromEnd length first).toNat + i * stride.toNat := by
  obtain ⟨s, rfl⟩ := Int.eq_ofNat_of_zero_le (show 0 ≤ stride by omega)
  have hs : 0 < s := by omega
  obtain ⟨k, hk⟩ := List.exists_mem_of_ne_nil _ hne
  simp only [Keep.positions, List.mem_filter, List.mem_range, decide_eq_true_eq] at hk
  obtain ⟨hkl, hk1, hk2, -⟩ := hk
  obtain ⟨f, hf⟩ := Int.eq_ofNat_of_zero_le hfirst
  obtain ⟨b, hb⟩ := Int.eq_ofNat_of_zero_le (show 0 ≤ min (stopOf length last - 1) (length - 1) - fromEnd length first by omega)
  have hlen : ((min (stopOf length last - 1) (length - 1) - fromEnd length first) / (s : ℤ) + 1).toNat = b / s + 1 := by
    rw [hb, ← Int.natCast_div, ← Nat.cast_succ, Int.toNat_natCast]
  rw [hlen, hf, Int.toNat_natCast, Int.toNat_natCast]
  have hsorted : ((Keep.strided first last s).positions length).Pairwise (· < ·) := List.pairwise_lt_range.filter _
  have hsorted' : ((List.range (b / s + 1)).map fun i => f + i * s).Pairwise (· < ·) := by
    rw [List.pairwise_map]
    refine List.pairwise_lt_range.imp fun h => ?_
    exact Nat.add_lt_add_left (Nat.mul_lt_mul_of_pos_right h hs) _
  have hmem : ∀ k, k ∈ (Keep.strided first last s).positions length ↔ k ∈ (List.range (b / s + 1)).map fun i => f + i * s := by
    intro k
    simp only [Keep.positions, List.mem_filter, List.mem_range, List.mem_map, decide_eq_true_eq, hf]
    constructor
    · rintro ⟨hkl, hfk, hstop, hmod⟩
      obtain ⟨e, rfl⟩ := Nat.exists_eq_add_of_le (show f ≤ k by omega)
      have hmod' : e % s = 0 := by
        have hcast : ((f + e : ℕ) : ℤ) - (f : ℤ) = (e : ℤ) := by omega
        rw [hcast] at hmod
        exact_mod_cast hmod
      refine ⟨e / s, Nat.lt_succ_of_le (Nat.div_le_div_right (by omega)), ?_⟩
      rw [Nat.div_mul_cancel (Nat.dvd_of_mod_eq_zero hmod')]
    · rintro ⟨i, hi, rfl⟩
      have hle : i * s ≤ b := (Nat.mul_le_mul_right s (Nat.le_of_lt_succ hi)).trans (Nat.div_mul_le_self b s)
      refine ⟨by omega, by omega, by omega, ?_⟩
      have hcast : ((f + i * s : ℕ) : ℤ) - (f : ℤ) = (i : ℤ) * s := by push_cast; omega
      rw [hcast]
      exact Int.mul_emod_left _ _
  have hperm := (List.perm_ext_iff_of_nodup (hsorted.imp Nat.ne_of_lt) (hsorted'.imp Nat.ne_of_lt)).mpr hmem
  exact hperm.eq_of_pairwise (fun a b _ _ h h' => absurd h (Nat.not_lt.mpr h'.le)) hsorted hsorted'

/-- The code's length of a range. -/
theorem extent_strided {length : ℕ} {first last stride : ℤ} (hvalid : (Keep.strided first last stride).Valid length)
    (hhandled : (Keep.strided first last stride).Handled length) :
    Range.extent length (fromEnd length first) (stopOf length last - 1) stride =
      (((Keep.strided first last stride).positions length).length : ℕ) := by
  obtain ⟨hstride, hne⟩ := hvalid
  obtain ⟨hfirst, hclamp⟩ := hhandled
  have hpositions := positions_strided hstride hfirst hne
  obtain ⟨k, hk⟩ := List.exists_mem_of_ne_nil _ hne
  simp only [Keep.positions, List.mem_filter, List.mem_range, decide_eq_true_eq] at hk
  obtain ⟨hkl, hk1, hk2, -⟩ := hk
  have hnonneg : 0 ≤ (min (stopOf length last - 1) (length - 1) - fromEnd length first) / stride :=
    Int.ediv_nonneg (by omega) (by omega)
  rw [hpositions, List.length_map, List.length_range, Int.toNat_of_nonneg (by omega), Range.extent]
  split at hclamp
  · next hle =>
    have hlast : stopOf length last - 1 ≤ length - 1 := by
      have hself : (stopOf length last - 1) * 1 ≤ (stopOf length last - 1) * stride := Int.mul_le_mul_of_nonneg_left hstride (by omega)
      omega
    rw [if_neg (by omega), min_eq_left hlast]
    obtain rfl | hsame := hclamp
    · rw [Int.ediv_one]
    · rw [hsame, Int.sub_self, Int.zero_ediv]
  · next hgt =>
    rw [if_pos (by omega), Int.tdiv_eq_ediv_of_nonneg (by omega), hclamp]

section
variable {x : NdArray} {dim : ℕ}

/-- Dimension `dim` cut to the elements that a range keeps. -/
def Keep.cut (k : Keep) (length : ℕ) (sh : Shape) (dim : ℕ) : Shape :=
  ⟨sh.offset + k.first length * (sh.dim dim).stride,
    sh.dimensions.modify dim fun d => ⟨(k.positions length).length, k.stride * d.stride⟩⟩

theorem positions_ne_nil {k : Keep} {length : ℕ} (hlength : 0 < length) (hvalid : k.Valid length) : k.positions length ≠ [] := by
  cases k with
  | all => exact List.ne_nil_of_length_pos (by rw [Keep.positions, List.length_range]; exact hlength)
  | el i => exact List.cons_ne_nil _ _
  | strided first last stride => exact hvalid.2

/-- A range with its first and last element. -/
theorem subviewRange_window (range : Range) (first length step : ℕ) (last stride : ℤ)
    (hdim : dim < x.shape.dimensions.length) (hnew : range.newDimension = false)
    (hfirst : (if range.first < 0 then ((x.shape.dim dim).length : ℤ) + range.first else range.first) = first)
    (hlast : range.lastIndex (some (x.shape.dim dim)) first = some last)
    (hstride : (if range.initialized then range.stride else 1) = stride) (hstep : stride = step)
    (hextent : Range.extent (x.shape.dim dim).length first last stride = length) (hlength : 0 < length) :
    x.subviewRange range dim false = x.reshape ⟨x.shape.offset + first * (x.shape.dim dim).stride,
      x.shape.dimensions.modify dim fun d => ⟨length, step * d.stride⟩⟩ := by
  have hget : x.shape.dim dim = x.shape.dimensions[dim] := List.getD_eq_getElem _ _ hdim
  have hat : x.shape.dim? dim = some (x.shape.dim dim) := by rw [Shape.dim?, List.getElem?_eq_getElem hdim, hget]
  have hsome : (if range.first < 0 then (some (x.shape.dim dim)).map fun d => (d.length : ℤ) + range.first else some range.first) =
      some (first : ℤ) := by
    rw [← hfirst]
    split <;> rfl
  unfold NdArray.subviewRange
  dsimp only
  rw [hat, hsome, Option.bind_some, if_neg hdim.ne, Option.map_some, Option.bind_some, if_neg (by simp [hnew]), hlast, Option.bind_some,
    if_neg (by simp), hstride]
  have hmap : (x.shape.dimensions.zipIdx.map fun p : ShapeDimension × ℕ =>
      if p.2 = dim then (Range.extent p.1.length first last stride, stride * (p.1.stride : ℤ))
      else ((p.1.length : ℤ), (p.1.stride : ℤ))) =
      (x.shape.dimensions.modify dim fun d => ⟨length, step * d.stride⟩).map fun d => ((d.length : ℤ), (d.stride : ℤ)) := by
    rw [← map_zipIdx_modify]
    apply List.map_congr_left
    intro p hp
    split
    · next h =>
      have hp := List.mem_zipIdx' hp
      have hlen : p.1 = x.shape.dim dim := by rw [hget]; simp only [hp.2, h]
      rw [hlen, hextent, hstep]
      push_cast
      rfl
    · rfl
  have hcast : ((x.shape.offset : ℤ) + first * (x.shape.dim dim).stride) =
      ((x.shape.offset + first * (x.shape.dim dim).stride : ℕ) : ℤ) := by
    push_cast
    rfl
  have hpos : ∀ d ∈ x.shape.dimensions.modify dim fun d => ⟨length, step * d.stride⟩, 0 < d.length := by
    intro d hd
    obtain ⟨i, hi, rfl⟩ := List.getElem_of_mem hd
    rw [List.getElem_modify]
    split
    · exact hlength
    · exact x.positive _ (List.getElem_mem _)
  rw [hmap, hcast, make_cast ?_ hpos, Option.bind_some]
  rw [← List.length_pos_iff, List.length_modify]
  omega

theorem subviewRange_keep {k : Keep} (hdim : dim < x.shape.dimensions.length) {length : ℕ} (hlen : (x.shape.dim dim).length = length)
    (hvalid : k.Valid length) (hhandled : k.Handled length) :
    x.subviewRange k.range dim false = x.reshape (k.cut length x.shape dim) := by
  subst hlen
  have hpos := x.dim_pos hdim
  have hlength : 0 < (k.positions (x.shape.dim dim).length).length := List.length_pos_iff.mpr (positions_ne_nil hpos hvalid)
  cases k with
  | all =>
    apply subviewRange_window .all 0 _ 1 ((x.shape.dim dim).length - 1) 1 hdim rfl rfl rfl rfl rfl ?_ hlength
    rw [Range.extent, if_neg (by omega), Keep.positions, List.length_range]
    simp
  | el i =>
    have hfirst : fromEnd (x.shape.dim dim).length i = ((Keep.el i).first (x.shape.dim dim).length : ℕ) :=
      (Int.toNat_of_nonneg hvalid.1).symm
    apply subviewRange_window (.el i) _ _ 1 _ 1 hdim rfl hfirst rfl rfl rfl ?_ hlength
    have hlt := hvalid.2
    rw [hfirst] at hlt
    rw [Range.extent, if_neg (by omega), Keep.positions, List.length_singleton]
    omega
  | strided first last stride =>
    have hfirst : fromEnd (x.shape.dim dim).length first = ((Keep.strided first last stride).first (x.shape.dim dim).length : ℕ) :=
      (Int.toNat_of_nonneg hhandled.1).symm
    have hextent := extent_strided hvalid hhandled
    rw [hfirst] at hextent
    have hstride := hvalid.1
    apply subviewRange_window (.strided first last stride) _ _ _ (stopOf (x.shape.dim dim).length last - 1) stride hdim rfl hfirst ?_ rfl ?_
      hextent hlength
    · show (if last ≤ 0 then some (((x.shape.dim dim).length : ℤ) - 1 + last) else some (last - 1)) = _
      rw [stopOf]
      split
      · congr 1
        omega
      · rfl
    · rw [Keep.stride]
      omega

end

/-! ## Lists of ranges -/

/-- The lengths that a list of ranges leaves. -/
def pickLengths : List Pick → List ℕ → List ℕ
  | [], ls => ls
  | .newAxis :: ps, ls => 1 :: pickLengths ps ls
  | .keep k :: ps, l :: ls => (k.positions l).length :: pickLengths ps ls
  | .keep _ :: _, [] => []

/-- The index tuple that one of the subview stands for. -/
def pickIndex : List Pick → List ℕ → List ℕ → List ℕ
  | [], _, idx => idx
  | .newAxis :: ps, ls, _ :: idx => pickIndex ps ls idx
  | .keep k :: ps, l :: ls, i :: idx => (k.positions l).getD i 0 :: pickIndex ps ls idx
  | _, _, _ => []

/-- Each range of a list has a property on the dimension it is for. -/
def Throughout (P : ℕ → Keep → Prop) : List Pick → List ℕ → Prop
  | [], _ => True
  | .newAxis :: ps, ls => Throughout P ps ls
  | .keep k :: ps, l :: ls => P l k ∧ Throughout P ps ls
  | .keep _ :: _, [] => False

/-- The dimensions and the offset after a list of ranges. -/
def cutDims : List Pick → List ShapeDimension → List ShapeDimension
  | [], ds => ds
  | .newAxis :: ps, ds => ⟨1, 0⟩ :: cutDims ps ds
  | .keep k :: ps, d :: ds => ⟨(k.positions d.length).length, k.stride * d.stride⟩ :: cutDims ps ds
  | .keep _ :: _, [] => []

def cutOffset : List Pick → List ShapeDimension → ℕ
  | [], _ => 0
  | .newAxis :: ps, ds => cutOffset ps ds
  | .keep k :: ps, d :: ds => k.first d.length * d.stride + cutOffset ps ds
  | .keep _ :: _, [] => 0

def Shape.picked (sh : Shape) (ps : List Pick) : Shape := ⟨sh.offset + cutOffset ps sh.dimensions, cutDims ps sh.dimensions⟩

/-- A range that the code gets right. -/
def Right (length : ℕ) (k : Keep) : Prop := k.Valid length ∧ k.Handled length

theorem throughout_and {P Q : ℕ → Keep → Prop} {ps : List Pick} {ls : List ℕ} (h : Throughout P ps ls) (h' : Throughout Q ps ls) :
    Throughout (fun l k => P l k ∧ Q l k) ps ls := by
  induction ps generalizing ls with
  | nil => trivial
  | cons p ps ih =>
    cases p with
    | newAxis => exact ih h h'
    | keep k =>
      cases ls with
      | nil => exact h.elim
      | cons l ls => exact ⟨⟨h.1, h'.1⟩, ih h.2 h'.2⟩

theorem throughout_take {P : ℕ → Keep → Prop} {ps : List Pick} {ls : List ℕ} (h : Throughout P ps ls) (n : ℕ) :
    Throughout P (ps.take n) ls := by
  induction ps generalizing ls n with
  | nil => rwa [List.take_nil]
  | cons p ps ih =>
    cases n with
    | zero => trivial
    | succ n =>
      cases p with
      | newAxis => exact ih h n
      | keep k =>
        cases ls with
        | nil => exact h.elim
        | cons l ls => exact ⟨h.1, ih h.2 n⟩

theorem getD_positions {k : Keep} {length i : ℕ} (h : Right length k) (hi : i < (k.positions length).length) :
    (k.positions length).getD i 0 = k.first length + i * k.stride := by
  cases k with
  | all =>
    rw [List.getD_eq_getElem _ _ hi]
    simp [Keep.positions, Keep.first, Keep.stride]
  | el j =>
    rw [Keep.positions, List.length_singleton] at hi
    obtain rfl : i = 0 := by omega
    simp [Keep.positions, Keep.first]
  | strided first last stride =>
    rw [positions_strided h.1.1 h.2.1 h.1.2] at hi ⊢
    rw [List.getD_eq_getElem _ _ hi, List.getElem_map, List.getElem_range, Keep.first, Keep.stride]

theorem getD_positions_lt {k : Keep} {length i : ℕ} (h : Right length k) (hi : i < (k.positions length).length) :
    (k.positions length).getD i 0 < length := by
  rw [List.getD_eq_getElem _ _ hi]
  have hmem := List.getElem_mem hi
  generalize (k.positions length)[i] = p at hmem
  cases k with
  | all => exact List.mem_range.mp hmem
  | el j =>
    obtain rfl := List.mem_singleton.mp hmem
    have := h.1
    rw [Keep.Valid] at this
    omega
  | strided first last stride => exact List.mem_range.mp (List.mem_filter.mp hmem).1

theorem cut_spec {ps : List Pick} {ds : List ShapeDimension} (h : Throughout Right ps (ds.map (·.length))) :
    (cutDims ps ds).map (·.length) = pickLengths ps (ds.map (·.length)) ∧
    ∀ idx ∈ indices (pickLengths ps (ds.map (·.length))), pickIndex ps (ds.map (·.length)) idx ∈ indices (ds.map (·.length)) ∧
      cutOffset ps ds + displacement (cutDims ps ds) idx = displacement ds (pickIndex ps (ds.map (·.length)) idx) := by
  induction ps generalizing ds with
  | nil => exact ⟨rfl, fun idx hidx => ⟨hidx, Nat.zero_add _⟩⟩
  | cons p ps ih =>
    cases p with
    | newAxis =>
      obtain ⟨hlengths, hindex⟩ := ih h
      refine ⟨congrArg (1 :: ·) hlengths, fun idx hidx => ?_⟩
      rw [pickLengths, mem_indices] at hidx
      obtain ⟨i, is, -, his, rfl⟩ := List.forall₂_cons_right_iff.mp hidx
      obtain ⟨hmem, hdisp⟩ := hindex is (mem_indices.mpr his)
      refine ⟨hmem, ?_⟩
      rw [cutOffset, cutDims, displacement, Nat.mul_zero, Nat.zero_add]
      exact hdisp
    | keep k =>
      cases ds with
      | nil => exact h.elim
      | cons d ds =>
        obtain ⟨hk, hrest⟩ := h
        obtain ⟨hlengths, hindex⟩ := ih hrest
        refine ⟨congrArg ((k.positions d.length).length :: ·) hlengths, fun idx hidx => ?_⟩
        rw [List.map_cons, pickLengths, mem_indices] at hidx
        obtain ⟨i, is, hi, his, rfl⟩ := List.forall₂_cons_right_iff.mp hidx
        obtain ⟨hmem, hdisp⟩ := hindex is (mem_indices.mpr his)
        constructor
        · rw [mem_indices] at hmem ⊢
          exact List.Forall₂.cons (getD_positions_lt hk hi) hmem
        · rw [List.map_cons, cutOffset, cutDims, displacement, pickIndex, displacement, getD_positions hk hi, ← hdisp]
          ring

theorem length_le_cutDims {P : ℕ → Keep → Prop} {ps : List Pick} {ds : List ShapeDimension} (h : Throughout P ps (ds.map (·.length))) :
    ps.length ≤ (cutDims ps ds).length := by
  induction ps generalizing ds with
  | nil => exact Nat.zero_le _
  | cons p ps ih =>
    cases p with
    | newAxis => exact Nat.succ_le_succ (ih h)
    | keep k =>
      cases ds with
      | nil => exact h.elim
      | cons d ds => exact Nat.succ_le_succ (ih h.2)

theorem cut_snoc_newAxis {P : ℕ → Keep → Prop} {ps : List Pick} {ds : List ShapeDimension} (h : Throughout P ps (ds.map (·.length))) :
    cutDims (ps ++ [.newAxis]) ds = (cutDims ps ds).insertIdx ps.length ⟨1, 0⟩ ∧
      cutOffset (ps ++ [.newAxis]) ds = cutOffset ps ds := by
  induction ps generalizing ds with
  | nil => exact ⟨rfl, rfl⟩
  | cons p ps ih =>
    cases p with
    | newAxis => exact ⟨congrArg (_ :: ·) (ih h).1, (ih h).2⟩
    | keep k =>
      cases ds with
      | nil => exact h.elim
      | cons d ds => exact ⟨congrArg (_ :: ·) (ih h.2).1, congrArg (_ + ·) (ih h.2).2⟩

theorem cut_snoc_keep {P : ℕ → Keep → Prop} {ps : List Pick} {k : Keep} {ds : List ShapeDimension}
    (h : Throughout P (ps ++ [.keep k]) (ds.map (·.length))) : ∃ e, (cutDims ps ds)[ps.length]? = some e ∧ P e.length k ∧
      cutDims (ps ++ [.keep k]) ds = (cutDims ps ds).modify ps.length (fun d => ⟨(k.positions e.length).length, k.stride * d.stride⟩) ∧
      cutOffset (ps ++ [.keep k]) ds = cutOffset ps ds + k.first e.length * e.stride := by
  induction ps generalizing ds with
  | nil =>
    cases ds with
    | nil => exact h.elim
    | cons d ds => exact ⟨d, rfl, h.1, rfl, Nat.add_comm _ _⟩
  | cons p ps ih =>
    cases p with
    | newAxis =>
      obtain ⟨e, he, hP, hdims, hoffset⟩ := ih h
      exact ⟨e, he, hP, congrArg (_ :: ·) hdims, hoffset⟩
    | keep k' =>
      cases ds with
      | nil => exact h.elim
      | cons d ds =>
        obtain ⟨e, he, hP, hdims, hoffset⟩ := ih h.2
        refine ⟨e, he, hP, congrArg (_ :: ·) hdims, ?_⟩
        exact (congrArg (_ + ·) hoffset).trans (Nat.add_assoc _ _ _).symm

/-! ## Views of the elements of an array -/

/-- A view whose elements are among those of an array can be made. -/
theorem reshape_of_address {x v : NdArray} (hacc : v.accessor = x.accessor) {sh : Shape} (hpos : ∀ n ∈ sh.lengths, 0 < n)
    (h : ∀ idx ∈ indices sh.lengths, ∃ idx' ∈ indices x.shape.lengths, sh.address idx = x.shape.address idx') :
    ∃ y, v.reshape sh = some y ∧ y.accessor = x.accessor ∧ y.shape = sh := by
  rw [← hacc]
  apply reshape_eq hpos
  have htop : sh.lengths.map (· - 1) ∈ indices sh.lengths := by
    rw [mem_indices, List.forall₂_map_left_iff, List.forall₂_same]
    intro n hn
    have := hpos n hn
    omega
  obtain ⟨idx', hidx', heq⟩ := h _ htop
  have hlt := x.address_lt hidx'
  have hmap : sh.lengths.map (· - 1) = sh.dimensions.map (·.length - 1) := by
    rw [Shape.lengths, List.map_map]
    rfl
  rw [← heq, Shape.address, hmap] at hlt
  rw [hacc, Shape.space, spaceRequired_eq]
  omega

theorem pickLengths_pos {ps : List Pick} {ls : List ℕ} (hls : ∀ l ∈ ls, 0 < l) (h : Throughout Right ps ls) :
    ∀ n ∈ pickLengths ps ls, 0 < n := by
  induction ps generalizing ls with
  | nil => exact hls
  | cons p ps ih =>
    cases p with
    | newAxis => exact List.forall_mem_cons.mpr ⟨Nat.one_pos, ih hls h⟩
    | keep k =>
      cases ls with
      | nil => exact h.elim
      | cons l ls =>
        rw [List.forall_mem_cons] at hls
        refine List.forall_mem_cons.mpr ⟨List.length_pos_iff.mpr (positions_ne_nil hls.1 h.1.1), ih hls.2 h.2⟩

section
variable {x : NdArray} {ps : List Pick} (h : Throughout Right ps x.shape.lengths)

include h

theorem lengths_picked : (x.shape.picked ps).lengths = pickLengths ps x.shape.lengths := (cut_spec h).1

theorem address_picked {idx : List ℕ} (hidx : idx ∈ indices (pickLengths ps x.shape.lengths)) :
    (x.shape.picked ps).address idx = x.shape.address (pickIndex ps x.shape.lengths idx) := by
  have hdisp := ((cut_spec h).2 idx hidx).2
  rw [Shape.address, Shape.address, Shape.picked]
  dsimp only
  rw [Nat.add_assoc, hdisp]
  rfl

theorem pickIndex_mem {idx : List ℕ} (hidx : idx ∈ indices (pickLengths ps x.shape.lengths)) :
    pickIndex ps x.shape.lengths idx ∈ indices x.shape.lengths := ((cut_spec h).2 idx hidx).1

theorem reshape_picked {v : NdArray} (hacc : v.accessor = x.accessor) :
    ∃ y, v.reshape (x.shape.picked ps) = some y ∧ y.accessor = x.accessor ∧ y.shape = x.shape.picked ps := by
  apply reshape_of_address hacc
  · rw [lengths_picked h]
    exact pickLengths_pos x.length_pos h
  · intro idx hidx
    rw [lengths_picked h] at hidx
    exact ⟨_, pickIndex_mem h hidx, address_picked h hidx⟩

/-- One more range. -/
theorem subviewRange_picked {v : NdArray} {qs : List Pick} {p : Pick} (hps : ps = qs ++ [p]) (hacc : v.accessor = x.accessor)
    (hsh : v.shape = x.shape.picked qs) :
    ∃ y, v.subviewRange p.range qs.length false = some y ∧ y.accessor = x.accessor ∧ y.shape = x.shape.picked ps := by
  have hqs : Throughout Right qs x.shape.lengths := by
    have htake := throughout_take h qs.length
    rwa [hps, List.take_left] at htake
  obtain ⟨y, hy, hyacc, hysh⟩ := reshape_picked h hacc
  refine ⟨y, ?_, hyacc, hysh⟩
  rw [← hy]
  subst hps
  cases p with
  | newAxis =>
    obtain ⟨hdims, hoffset⟩ := cut_snoc_newAxis hqs
    have hrank : qs.length ≤ v.shape.dimensions.length := by
      rw [hsh]
      exact length_le_cutDims hqs
    rw [Pick.range, subviewRange_newAxis hrank, Shape.newAxis, hsh, Shape.picked, Shape.picked, hdims, hoffset]
  | keep k =>
    obtain ⟨e, he, hright, hdims, hoffset⟩ := cut_snoc_keep h
    have hat : v.shape.dimensions[qs.length]? = some e := by rw [hsh]; exact he
    obtain ⟨hrank, -⟩ := List.getElem?_eq_some_iff.mp hat
    have hdim : v.shape.dim qs.length = e := by rw [Shape.dim, List.getD_eq_getElem?_getD, hat, Option.getD_some]
    rw [Pick.range, subviewRange_keep hrank (by rw [hdim]) hright.1 hright.2, Keep.cut, hdim, hsh, Shape.picked, Shape.picked, hdims,
      hoffset, Nat.add_assoc]

end

theorem foldlM_subviewRange {x : NdArray} {ps : List Pick} (h : Throughout Right ps x.shape.lengths) {n : ℕ} (hn : n ≤ ps.length) :
    ∃ y, (List.range n).foldlM (fun (v : NdArray) i => v.subviewRange ((ps.map Pick.range).getD i .all) i false) x = some y ∧
      y.accessor = x.accessor ∧ y.shape = x.shape.picked (ps.take n) := by
  induction n with
  | zero => exact ⟨x, rfl, rfl, rfl⟩
  | succ n ih =>
    obtain ⟨v, hv, hacc, hsh⟩ := ih (by omega)
    have hlen : (ps.take n).length = n := by rw [List.length_take]; omega
    have hsnoc : ps.take (n + 1) = ps.take n ++ [ps[n]] := (List.take_append_getElem hn).symm
    obtain ⟨y, hy, hyacc, hysh⟩ := subviewRange_picked (throughout_take h (n + 1)) hsnoc hacc hsh
    refine ⟨y, ?_, hyacc, hysh⟩
    have hget : (ps.map Pick.range).getD n .all = ps[n].range := by
      rw [List.getD_eq_getElem _ _ (by rw [List.length_map]; exact hn), List.getElem_map]
    rw [hlen] at hy
    rw [List.range_succ, List.foldlM_append, hv, Option.bind_eq_bind, Option.bind_some, List.foldlM_cons, hget, hy]
    rfl

/-! ## Collapsed dimensions -/

/-- What stays of a list with one entry for each dimension. -/
def dropEls {α : Type} : List Pick → List α → List α
  | .keep (.el _) :: ps, _ :: l => dropEls ps l
  | _ :: ps, a :: l => a :: dropEls ps l
  | [], l => l
  | _ :: _, [] => []

/-- The index tuple with zeros for the dimensions that were dropped. -/
def expand : List Pick → List ℕ → List ℕ
  | .keep (.el _) :: ps, idx => 0 :: expand ps idx
  | _ :: ps, i :: idx => i :: expand ps idx
  | [], idx => idx
  | _ :: _, [] => []

theorem filter_dropEls {α : Type} {g : ℕ → Bool} (ps : List Pick) (l : List α) (n : ℕ)
    (hg : ∀ j, g (n + j) = (ps.map Pick.range |>.getD j .all).singleElement) :
    ((l.zipIdx n).filter fun p => ¬g p.2).map Prod.fst = dropEls ps l := by
  induction l generalizing ps n with
  | nil => cases ps with
    | nil => rfl
    | cons p ps => rcases p with _ | (_ | _ | _) <;> rfl
  | cons a l ih =>
    have hhead := hg 0
    cases ps with
    | nil =>
      have hrest := ih [] (n + 1) fun j => by rw [Nat.add_assoc, hg (1 + j)]; rfl
      rw [List.zipIdx_cons, List.filter_cons_of_pos (by simp at hhead; simp [hhead, Range.all]), List.map_cons, hrest]
      cases l <;> rfl
    | cons p ps =>
      have hrest := ih ps (n + 1) fun j => by rw [Nat.add_assoc, hg (1 + j), Nat.add_comm 1 j]; rfl
      rw [List.map_cons, List.getD_cons_zero, Nat.add_zero] at hhead
      rcases p with _ | (_ | _ | _)
      · rw [List.zipIdx_cons, List.filter_cons_of_pos (by simp [hhead, Pick.range, Range.newAxis]), List.map_cons, hrest]
        rfl
      · rw [List.zipIdx_cons, List.filter_cons_of_pos (by simp [hhead, Pick.range, Keep.range, Range.all]), List.map_cons, hrest]
        rfl
      · rw [List.zipIdx_cons, List.filter_cons_of_neg (by simp [hhead, Pick.range, Keep.range, Range.el]), hrest]
        rfl
      · rw [List.zipIdx_cons, List.filter_cons_of_pos (by simp [hhead, Pick.range, Keep.range, Range.strided]), List.map_cons, hrest]
        rfl

theorem map_dropEls {α β : Type} (f : α → β) (ps : List Pick) (l : List α) : (dropEls ps l).map f = dropEls ps (l.map f) := by
  induction l generalizing ps with
  | nil => cases ps with
    | nil => rfl
    | cons p ps => rcases p with _ | (_ | _ | _) <;> rfl
  | cons a l ih => cases ps with
    | nil => rfl
    | cons p ps =>
      rcases p with _ | (_ | _ | _)
      · exact congrArg (f a :: ·) (ih ps)
      · exact congrArg (f a :: ·) (ih ps)
      · exact ih ps
      · exact congrArg (f a :: ·) (ih ps)

theorem dropEls_sublist {α : Type} (ps : List Pick) (l : List α) : (dropEls ps l).Sublist l := by
  induction l generalizing ps with
  | nil => cases ps with
    | nil => exact List.Sublist.refl _
    | cons p ps => rcases p with _ | (_ | _ | _) <;> exact List.Sublist.refl _
  | cons a l ih => cases ps with
    | nil => exact List.Sublist.refl _
    | cons p ps =>
      rcases p with _ | (_ | _ | _)
      · exact (ih ps).cons_cons a
      · exact (ih ps).cons_cons a
      · exact (ih ps).cons a
      · exact (ih ps).cons_cons a

theorem expand_spec {ps : List Pick} {ds : List ShapeDimension} (h : Throughout Right ps (ds.map (·.length))) {idx : List ℕ}
    (hidx : idx ∈ indices (dropEls ps (pickLengths ps (ds.map (·.length))))) :
    expand ps idx ∈ indices (pickLengths ps (ds.map (·.length))) ∧
      displacement (dropEls ps (cutDims ps ds)) idx = displacement (cutDims ps ds) (expand ps idx) := by
  rw [mem_indices] at hidx ⊢
  induction ps generalizing ds idx with
  | nil =>
    cases ds with
    | nil => exact ⟨hidx, rfl⟩
    | cons d ds => exact ⟨hidx, rfl⟩
  | cons p ps ih =>
    cases p with
    | newAxis =>
      obtain ⟨i, is, hi, his, rfl⟩ := List.forall₂_cons_right_iff.mp hidx
      obtain ⟨hmem, hdisp⟩ := ih h his
      exact ⟨List.Forall₂.cons hi hmem, congrArg (i * 0 + ·) hdisp⟩
    | keep k =>
      cases ds with
      | nil => exact h.elim
      | cons d ds =>
        have hrest := @ih ds
        cases k with
        | all =>
          obtain ⟨i, is, hi, his, rfl⟩ := List.forall₂_cons_right_iff.mp hidx
          obtain ⟨hmem, hdisp⟩ := hrest h.2 his
          exact ⟨List.Forall₂.cons hi hmem, congrArg (i * (Keep.all.stride * d.stride) + ·) hdisp⟩
        | el j =>
          obtain ⟨hmem, hdisp⟩ := hrest h.2 hidx
          refine ⟨List.Forall₂.cons Nat.one_pos hmem, ?_⟩
          show displacement (dropEls ps (cutDims ps ds)) idx = 0 * _ + displacement (cutDims ps ds) (expand ps idx)
          rw [Nat.zero_mul, Nat.zero_add, hdisp]
        | strided first last stride =>
          obtain ⟨i, is, hi, his, rfl⟩ := List.forall₂_cons_right_iff.mp hidx
          obtain ⟨hmem, hdisp⟩ := hrest h.2 his
          exact ⟨List.Forall₂.cons hi hmem, congrArg (i * ((Keep.strided first last stride).stride * d.stride) + ·) hdisp⟩

/-! ## One operation -/

inductive ViewOp
  | element (e : ℤ)
  | ranges (ps : List Pick) (collapse : Bool)
  | transpose
  deriving DecidableEq, Repr

namespace ViewOp

/-- What the code does. -/
def run (x : NdArray) : ViewOp → Option NdArray
  | element e => x.subviewElement e
  | ranges ps collapse => x.subviewRanges (ps.map Pick.range) collapse
  | transpose => x.transpose

def lengths (ls : List ℕ) : ViewOp → List ℕ
  | element _ => if ls.length = 1 then [1] else ls.tail
  | ranges ps collapse =>
    if collapse then
      if dropEls ps (pickLengths ps ls) = [] then [1] else dropEls ps (pickLengths ps ls)
    else pickLengths ps ls
  | transpose => ls.reverse

/-- The index tuple that one of the view stands for. -/
def index (ls idx : List ℕ) : ViewOp → List ℕ
  | element e => (fromEnd (ls.getD 0 1) e).toNat :: if ls.length = 1 then [] else idx
  | ranges ps collapse =>
    if collapse then pickIndex ps ls (expand ps (if dropEls ps (pickLengths ps ls) = [] then [] else idx))
    else pickIndex ps ls idx
  | transpose => idx.reverse

/-- The element is one of the first dimension, the ranges are for dimensions that there are and keep an element. -/
def Valid (x : NdArray) : ViewOp → Prop
  | element e => (Keep.el e).Valid (x.shape.lengths.getD 0 1)
  | ranges ps _ => Throughout (fun l k => k.Valid l) ps x.shape.lengths
  | transpose => True

/-- The clamping rule is right for every range. `Transpose` forgets the offset, which is to be zero, and what it makes of one
dimension is all of the data, which is to be what the view shows. -/
def Handled (x : NdArray) : ViewOp → Prop
  | element _ => True
  | ranges ps _ => Throughout (fun l k => k.Handled l) ps x.shape.lengths
  | transpose => x.shape.offset = 0 ∧ (x.shape.dimensions.length = 1 →
      (x.shape.dim 0).length = x.accessor.size ∧ ((x.shape.dim 0).stride = 1 ∨ (x.shape.dim 0).length = 1))

end ViewOp

/-- The view shows the elements that an index map selects. -/
def Selects (x : NdArray) (ls : List ℕ) (f : List ℕ → List ℕ) (y : NdArray) : Prop :=
  y.accessor = x.accessor ∧ y.shape.lengths = ls ∧
  ∀ idx ∈ indices ls, f idx ∈ indices x.shape.lengths ∧ y.shape.address idx = x.shape.address (f idx)

/-- A view can be made if it shows elements of the array. -/
theorem exists_selects {x : NdArray} {ls : List ℕ} {f : List ℕ → List ℕ} {sh : Shape} (hlengths : sh.lengths = ls)
    (hpos : ∀ n ∈ ls, 0 < n)
    (h : ∀ idx ∈ indices ls, f idx ∈ indices x.shape.lengths ∧ sh.address idx = x.shape.address (f idx)) {v : NdArray}
    (hacc : v.accessor = x.accessor) : ∃ y, v.reshape sh = some y ∧ Selects x ls f y := by
  subst hlengths
  obtain ⟨y, hy, hyacc, hysh⟩ := reshape_of_address hacc hpos fun idx hidx => ⟨f idx, (h idx hidx).1, (h idx hidx).2⟩
  subst hysh
  exact ⟨y, hy, hyacc, rfl, h⟩

theorem indices_single {idx : List ℕ} (hidx : idx ∈ indices [1]) : idx = [0] := by
  rw [indices_one] at hidx
  obtain ⟨i, hi, rfl⟩ := List.mem_map.mp hidx
  rw [List.mem_range] at hi
  congr 1
  omega

theorem displacement_reverse {ds : List ShapeDimension} {idx : List ℕ} (hlen : idx.length = ds.length) :
    displacement ds.reverse idx.reverse = displacement ds idx := by
  have hzip : idx.reverse.zip ds.reverse = (idx.zip ds).reverse := (List.reverse_zipWith hlen).symm
  rw [displacement_eq_sum, displacement_eq_sum, hzip, List.map_reverse, List.sum_reverse]

section
variable {x : NdArray}

theorem element_selects (hrank : x.shape.dimensions ≠ []) {e : ℤ} (hvalid : (ViewOp.element e).Valid x) : ∃ y, (ViewOp.element e).run x = some y ∧
    Selects x ((ViewOp.element e).lengths x.shape.lengths) (fun idx => (ViewOp.element e).index x.shape.lengths idx) y := by
  obtain ⟨d, ds, hds⟩ := List.exists_cons_of_ne_nil hrank
  have hls : x.shape.lengths = d.length :: ds.map (·.length) := by rw [Shape.lengths, hds, List.map_cons]
  rw [ViewOp.Valid, hls, List.getD_cons_zero] at hvalid
  obtain ⟨hlow, hhigh⟩ := hvalid
  obtain ⟨j, hj⟩ := Int.eq_ofNat_of_zero_le hlow
  have hlt : j < d.length := by omega
  have hsplit : x.shape.lengths = [d.length] ++ ds.map (·.length) := hls
  have hat : x.shape.at? [j] = some (x.shape.address [j]) :=
    Shape.at?_eq hsplit (mem_indices.mpr (List.Forall₂.cons hlt List.Forall₂.nil))
  have haddress : ∀ idx, x.shape.address (j :: idx) = x.shape.address [j] + displacement ds idx := by
    intro idx
    have hnil : displacement ds [] = 0 := by cases ds <;> rfl
    show x.shape.offset + displacement x.shape.dimensions (j :: idx) =
      x.shape.offset + displacement x.shape.dimensions [j] + displacement ds idx
    rw [hds, displacement, displacement, hnil]
    omega
  have hrun : (ViewOp.element e).run x = if x.shape.dimensions.length = 1 then
      (Shape.make [(1, (x.shape.space : ℤ) - x.shape.address [j])] (x.shape.address [j])).bind x.reshape
      else (Shape.make (ds.map fun d => ((d.length : ℤ), (d.stride : ℤ))) (x.shape.address [j])).bind x.reshape := by
    have hdim : x.shape.dim? 0 = some d := by rw [Shape.dim?, hds]; rfl
    show x.subviewElement e = _
    unfold NdArray.subviewElement
    rw [hdim, Option.bind_some]
    show (if fromEnd d.length e < 0 ∨ (d.length : ℤ) < fromEnd d.length e then none else _) = _
    rw [if_neg (by omega)]
    show (x.shape.at? [(fromEnd d.length e).toNat]).bind _ = _
    rw [hj, Int.toNat_natCast, hat, Option.bind_some, hds, List.tail_cons]
  have hindex : ∀ idx, (ViewOp.element e).index x.shape.lengths idx = j :: if x.shape.lengths.length = 1 then [] else idx := by
    intro idx
    rw [ViewOp.index, hls, List.getD_cons_zero, hj, Int.toNat_natCast]
  have hlen : x.shape.dimensions.length = x.shape.lengths.length := (List.length_map _).symm
  rw [hrun, hlen, ViewOp.lengths]
  simp only [hindex]
  split
  · next hone =>
    have hds' : ds = [] := by
      rw [hls, List.length_cons, List.length_map] at hone
      exact List.length_eq_zero_iff.mp (Nat.succ.inj hone)
    have hspace : x.shape.address [j] < x.shape.space := by
      apply Shape.lt_of_mem_addresses
      apply Shape.address_mem
      rw [hls, hds', mem_indices]
      exact List.Forall₂.cons hlt List.Forall₂.nil
    have hmake := @make_cast [⟨1, x.shape.space - x.shape.address [j]⟩] (List.cons_ne_nil _ _) (by simp) (x.shape.address [j])
    rw [List.map_singleton] at hmake
    have hcast : (((x.shape.space - x.shape.address [j] : ℕ) : ℤ)) = (x.shape.space : ℤ) - x.shape.address [j] := by omega
    rw [hcast] at hmake
    rw [show ((1, (x.shape.space : ℤ) - x.shape.address [j]) : ℤ × ℤ) = (((1 : ℕ) : ℤ), (x.shape.space : ℤ) - x.shape.address [j]) from rfl,
      hmake, Option.bind_some]
    apply exists_selects rfl (by simp [Shape.lengths]) ?_ rfl
    intro idx hidx
    obtain rfl := indices_single hidx
    refine ⟨?_, ?_⟩
    · rw [hls, hds', mem_indices]
      exact List.Forall₂.cons hlt List.Forall₂.nil
    · rw [Shape.address]
      simp [displacement]
  · next hmany =>
    have hne : ds ≠ [] := by
      rintro rfl
      apply hmany
      rw [hls]
      rfl
    rw [make_cast hne (fun d' hd' => x.positive d' (by rw [hds]; exact List.mem_cons_of_mem _ hd')), Option.bind_some]
    apply exists_selects (by rw [hls]; rfl) ?_ ?_ rfl
    · intro n hn
      exact x.length_pos n (List.mem_of_mem_tail hn)
    · intro idx hidx
      rw [hls, List.tail_cons] at hidx
      constructor
      · rw [hls, mem_indices] at *
        exact List.Forall₂.cons hlt hidx
      · exact (haddress idx).symm

theorem transpose_selects (hhandled : ViewOp.transpose.Handled x) : ∃ y, ViewOp.transpose.run x = some y ∧
    Selects x (ViewOp.transpose.lengths x.shape.lengths) (fun idx => ViewOp.transpose.index x.shape.lengths idx) y := by
  obtain ⟨hoffset, hone⟩ := hhandled
  show ∃ y, x.transpose = some y ∧ _
  rw [NdArray.transpose]
  split
  · next hlen =>
    obtain ⟨hsize, hstride⟩ := hone hlen
    obtain ⟨d, hd⟩ := List.length_eq_one_iff.mp hlen
    have hdim : x.shape.dim 0 = d := by rw [Shape.dim, hd]; rfl
    have hls : x.shape.lengths = [d.length] := by rw [Shape.lengths, hd]; rfl
    rw [hdim] at hsize hstride
    have hpos : 0 < d.length := x.positive d (by rw [hd]; exact List.mem_cons_self)
    have hlengths : (plainShape [x.accessor.size]).lengths = (ViewOp.transpose.lengths x.shape.lengths) := by
      rw [lengths_plainShape, ViewOp.lengths, hls, hsize]
      rfl
    apply exists_selects hlengths ?_ ?_ rfl
    · rw [ViewOp.lengths, hls]
      simpa using hpos
    · rw [ViewOp.lengths, hls]
      intro idx hidx
      have hmem : idx ∈ indices [d.length] := hidx
      rw [indices_one] at hmem
      obtain ⟨i, hi, rfl⟩ := List.mem_map.mp hmem
      have hi := List.mem_range.mp hi
      refine ⟨hidx, ?_⟩
      show (plainShape [x.accessor.size]).address [i] = x.shape.address [i]
      rw [address_plainShape, Shape.address, hd, hoffset]
      show i * 1 + 0 = 0 + (i * d.stride + 0)
      obtain hs | hs := hstride
      · rw [hs]
        omega
      · obtain rfl : i = 0 := by omega
        rw [Nat.zero_mul, Nat.zero_mul]
  · next hlen =>
    have hlengths : (⟨0, x.shape.dimensions.reverse⟩ : Shape).lengths = ViewOp.transpose.lengths x.shape.lengths :=
      List.map_reverse
    apply exists_selects hlengths ?_ ?_ rfl
    · intro n hn
      exact x.length_pos n (List.mem_reverse.mp hn)
    · intro idx hidx
      have hmem : idx.reverse ∈ indices x.shape.lengths := by
        rw [ViewOp.lengths, mem_indices] at hidx
        rw [mem_indices, ← List.forall₂_reverse_iff, List.reverse_reverse]
        exact hidx
      refine ⟨hmem, ?_⟩
      have hlen' : idx.reverse.length = x.shape.dimensions.length := by
        rw [(mem_indices.mp hmem).length_eq, Shape.lengths, List.length_map]
      rw [Shape.address, Shape.address, hoffset]
      show 0 + displacement x.shape.dimensions.reverse idx = 0 + displacement x.shape.dimensions idx.reverse
      rw [← displacement_reverse hlen', List.reverse_reverse]

theorem uncollapsed_eq (ps : List Pick) (ds : List ShapeDimension) : uncollapsed (ps.map Pick.range) ds = dropEls ps ds :=
  @filter_dropEls _ (fun j => ((ps.map Pick.range).getD j .all).singleElement) ps ds 0 fun j => by rw [Nat.zero_add]

theorem ranges_selects (hrank : x.shape.dimensions ≠ []) {ps : List Pick} (h : Throughout Right ps x.shape.lengths) (collapse : Bool) :
    ∃ y, (ViewOp.ranges ps collapse).run x = some y ∧ Selects x ((ViewOp.ranges ps collapse).lengths x.shape.lengths)
      (fun idx => (ViewOp.ranges ps collapse).index x.shape.lengths idx) y := by
  have hls : x.shape.lengths ≠ [] := fun hnil => hrank (List.map_eq_nil_iff.mp hnil)
  obtain rfl | hps := eq_or_ne ps []
  · refine ⟨x, rfl, rfl, ?_, ?_⟩
    · cases collapse with
      | false => rfl
      | true => exact (if_neg hls).symm
    · intro idx hidx
      cases collapse with
      | false => exact ⟨hidx, rfl⟩
      | true =>
        have hindex : (ViewOp.ranges [] true).index x.shape.lengths idx = idx := if_neg hls
        have hlengths : (ViewOp.ranges [] true).lengths x.shape.lengths = x.shape.lengths := if_neg hls
        rw [hlengths] at hidx
        dsimp only
        rw [hindex]
        exact ⟨hidx, rfl⟩
  obtain ⟨v, hv, hacc, hsh⟩ := foldlM_subviewRange h le_rfl
  rw [List.take_length] at hsh
  have hvdims : v.shape.dimensions = cutDims ps x.shape.dimensions := by rw [hsh]; rfl
  have hvls : v.shape.lengths = pickLengths ps x.shape.lengths := by rw [hsh, lengths_picked h]
  have hvaddress : ∀ idx ∈ indices (pickLengths ps x.shape.lengths), v.shape.address idx = x.shape.address (pickIndex ps x.shape.lengths idx) := by
    intro idx hidx
    rw [hsh]
    exact address_picked h hidx
  have hrun : (ViewOp.ranges ps collapse).run x = if ¬collapse then some v else
      if dropEls ps v.shape.dimensions = [] then
        (v.shape.at? (List.replicate v.shape.dimensions.length 0)).bind fun pos => v.reshape ⟨pos, [⟨1, 1⟩]⟩
      else v.reshape ⟨v.shape.offset, dropEls ps v.shape.dimensions⟩ := by
    show x.subviewRanges (ps.map Pick.range) collapse = _
    rw [NdArray.subviewRanges, if_neg (fun hnil => hps (List.map_eq_nil_iff.mp hnil)), List.length_map, hv, Option.bind_some,
      uncollapsed_eq]
  rw [hrun]
  cases collapse with
  | false =>
    refine ⟨v, rfl, hacc, hvls, fun idx hidx => ?_⟩
    exact ⟨pickIndex_mem h hidx, hvaddress idx hidx⟩
  | true =>
    have hdropped : (dropEls ps v.shape.dimensions).map (·.length) = dropEls ps (pickLengths ps x.shape.lengths) := by
      rw [map_dropEls, ← hvls]
      rfl
    have hposv : ∀ n ∈ dropEls ps (pickLengths ps x.shape.lengths), 0 < n := fun n hn =>
      pickLengths_pos x.length_pos h n ((dropEls_sublist ps _).subset hn)
    have hexpand : ∀ idx ∈ indices (dropEls ps (pickLengths ps x.shape.lengths)),
        expand ps idx ∈ indices (pickLengths ps x.shape.lengths) ∧
        displacement (dropEls ps v.shape.dimensions) idx = displacement v.shape.dimensions (expand ps idx) := by
      intro idx hidx
      rw [hvdims]
      exact expand_spec h hidx
    have hselect : ∀ idx ∈ indices (dropEls ps (pickLengths ps x.shape.lengths)),
        v.shape.offset + displacement (dropEls ps v.shape.dimensions) idx =
          x.shape.address (pickIndex ps x.shape.lengths (expand ps idx)) := by
      intro idx hidx
      obtain ⟨hmem, hdisp⟩ := hexpand idx hidx
      rw [hdisp]
      exact hvaddress _ hmem
    rw [if_neg (by simp)]
    split
    · next hnil =>
      have hdl : dropEls ps (pickLengths ps x.shape.lengths) = [] := by rw [← hdropped, hnil]; rfl
      have hlengths : (ViewOp.ranges ps true).lengths x.shape.lengths = [1] := if_pos hdl
      have hindex : ∀ idx, (ViewOp.ranges ps true).index x.shape.lengths idx = pickIndex ps x.shape.lengths (expand ps []) := fun idx =>
        congrArg (fun is => pickIndex ps x.shape.lengths (expand ps is)) (if_pos hdl)
      have hzeros : v.shape.at? (List.replicate v.shape.dimensions.length 0) = some v.shape.offset := by
        have hlen : v.shape.dimensions.length = v.shape.lengths.length := (List.length_map _).symm
        rw [Shape.at?_eq (List.append_nil _).symm (by rw [hlen]; exact zeros_mem v.length_pos), address_zeros]
      have hempty : [] ∈ indices (dropEls ps (pickLengths ps x.shape.lengths)) := by
        rw [hdl, mem_indices]
        exact List.Forall₂.nil
      rw [hzeros, Option.bind_some, hlengths]
      simp only [hindex]
      apply exists_selects rfl (fun n hn => by rw [List.mem_singleton.mp hn]; exact Nat.one_pos) ?_ hacc
      intro idx hidx
      obtain rfl := indices_single hidx
      refine ⟨pickIndex_mem h (hexpand [] hempty).1, ?_⟩
      rw [← hselect [] hempty, hnil]
      rfl
    · next hmany =>
      have hdl : dropEls ps (pickLengths ps x.shape.lengths) ≠ [] := by
        rw [← hdropped]
        exact fun hnil => hmany (List.map_eq_nil_iff.mp hnil)
      have hlengths : (ViewOp.ranges ps true).lengths x.shape.lengths = dropEls ps (pickLengths ps x.shape.lengths) := if_neg hdl
      have hindex : ∀ idx, (ViewOp.ranges ps true).index x.shape.lengths idx = pickIndex ps x.shape.lengths (expand ps idx) := fun idx =>
        congrArg (fun is => pickIndex ps x.shape.lengths (expand ps is)) (if_neg hdl)
      rw [hlengths]
      simp only [hindex]
      apply @exists_selects x _ _ ⟨v.shape.offset, dropEls ps v.shape.dimensions⟩ hdropped hposv ?_ _ hacc
      exact fun idx hidx => ⟨pickIndex_mem h (hexpand idx hidx).1, hselect idx hidx⟩

/-- One operation. -/
theorem run_selects (hrank : x.shape.dimensions ≠ []) {op : ViewOp} (hvalid : op.Valid x) (hhandled : op.Handled x) :
    ∃ y, op.run x = some y ∧ Selects x (op.lengths x.shape.lengths) (fun idx => op.index x.shape.lengths idx) y := by
  cases op with
  | element e => exact element_selects hrank hvalid
  | ranges ps collapse => exact ranges_selects hrank (throughout_and hvalid hhandled) collapse
  | transpose => exact transpose_selects hhandled

theorem lengths_ne_nil {op : ViewOp} (hrank : x.shape.lengths ≠ []) (hvalid : op.Valid x) : op.lengths x.shape.lengths ≠ [] := by
  cases op with
  | element e =>
    rw [ViewOp.lengths]
    split
    · exact List.cons_ne_nil _ _
    · next h =>
      intro hnil
      have hlen := List.length_tail (l := x.shape.lengths)
      have hpos := List.length_pos_iff.mpr hrank
      rw [hnil, List.length_nil] at hlen
      omega
  | ranges ps collapse =>
    have hpick : pickLengths ps x.shape.lengths ≠ [] := by
      generalize x.shape.lengths = ls at hrank hvalid
      cases ps with
      | nil => exact hrank
      | cons p ps =>
        cases p with
        | newAxis => exact List.cons_ne_nil _ _
        | keep k =>
          cases ls with
          | nil => exact absurd rfl hrank
          | cons l ls => exact List.cons_ne_nil _ _
    rw [ViewOp.lengths]
    split
    · split
      · exact List.cons_ne_nil _ _
      · assumption
    · exact hpick
  | transpose => exact fun h => hrank (List.reverse_eq_nil_iff.mp h)

end

/-! ## Runs -/

/-- The operations one after the other. -/
def NdArray.views (x : NdArray) (ops : List ViewOp) : Option NdArray := ops.foldlM ViewOp.run x

def chainLengths : List ViewOp → List ℕ → List ℕ
  | [], ls => ls
  | op :: ops, ls => chainLengths ops (op.lengths ls)

/-- The index maps composed, the one of the last view first. -/
def chainIndex : List ViewOp → List ℕ → List ℕ → List ℕ
  | [], _, idx => idx
  | op :: ops, ls, idx => op.index ls (chainIndex ops (op.lengths ls) idx)

/-- Each operation is in order on the array that it gets. -/
def Chain : List ViewOp → NdArray → Prop
  | [], _ => True
  | op :: ops, x => op.Valid x ∧ op.Handled x ∧ ∀ y, op.run x = some y → Chain ops y

/-- However long the chain, the view shows what the composed index maps select, within the data. -/
theorem views_select (x : NdArray) (ops : List ViewOp) (hrank : x.shape.dimensions ≠ []) (hchain : Chain ops x) :
    ∃ y, x.views ops = some y ∧
      Selects x (chainLengths ops x.shape.lengths) (fun idx => chainIndex ops x.shape.lengths idx) y := by
  induction ops generalizing x with
  | nil => exact ⟨x, rfl, rfl, rfl, fun idx hidx => ⟨hidx, rfl⟩⟩
  | cons op ops ih =>
    obtain ⟨hvalid, hhandled, hrest⟩ := hchain
    obtain ⟨v, hv, hacc, hlengths, hindex⟩ := run_selects hrank hvalid hhandled
    have hvrank : v.shape.dimensions ≠ [] := by
      intro hnil
      apply lengths_ne_nil (fun h => hrank (List.map_eq_nil_iff.mp h)) hvalid
      rw [← hlengths, Shape.lengths, hnil, List.map_nil]
    obtain ⟨y, hy, hyacc, hylengths, hyindex⟩ := ih v hvrank (hrest v hv)
    rw [hlengths] at hylengths hyindex
    refine ⟨y, ?_, hyacc.trans hacc, hylengths, ?_⟩
    · rw [NdArray.views, List.foldlM_cons, hv]
      exact hy
    · intro idx hidx
      obtain ⟨hmem, haddress⟩ := hyindex idx hidx
      obtain ⟨hmem', haddress'⟩ := hindex _ hmem
      exact ⟨hmem', haddress.trans haddress'⟩

/-- Three rows of four elements. -/
def gridView : NdArray := ⟨⟨0, 12⟩, ⟨0, [⟨3, 4⟩, ⟨4, 1⟩]⟩, by decide, by decide⟩

/-- Every other column of the last two rows, on a new axis, then its last row. -/
theorem views_select_grid : ∃ y, gridView.views [.transpose, .ranges [.keep (.strided 0 0 2), .newAxis, .keep (.strided 1 0 1)] false,
      .element (-1)] = some y ∧
    Selects gridView [1, 2] (fun idx => chainIndex [.transpose, .ranges [.keep (.strided 0 0 2), .newAxis, .keep (.strided 1 0 1)] false,
      .element (-1)] [3, 4] idx) y :=
  views_select gridView [.transpose, .ranges [.keep (.strided 0 0 2), .newAxis, .keep (.strided 1 0 1)] false, .element (-1)] (by decide)
    ⟨trivial, ⟨rfl, by decide⟩, fun y hy => by
      obtain rfl := Option.some.inj hy
      refine ⟨⟨⟨by decide, by decide⟩, ⟨by decide, by decide⟩, trivial⟩, ⟨⟨by decide, by decide⟩, ⟨by decide, by decide⟩, trivial⟩, ?_⟩
      intro z hz
      obtain rfl := Option.some.inj hz
      exact ⟨⟨by decide, by decide⟩, trivial, fun _ _ => trivial⟩⟩

end Bohrium.NumCil
