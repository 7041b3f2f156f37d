import Bohrium.Bxx.Broadcast
import Bohrium.Library.Rounds
import Mathlib.Data.Int.ModEq

/-! # Views of views

Every view operation starts from `temp_view`, whose copy constructor forgets the start and the strides. A
slice sets the start and the stride of its own dimension again, a transposition the strides, `view_as` none
of them. So a view is right only if what the operation does not repair had the forgotten value. -/
namespace Bohrium.Bxx
open CInt Strided Layout Walk Rounds
set_option autoImplicit false

inductive ViewOp
  | slice (first last : ℤ) (step : ℕ)
  | transpose
  | viewAs (shape : List ℕ)
  deriving DecidableEq, Repr

/-- The call with the array `x`; what it returns is an array again. -/
def Bridge.apply (w : Bridge) (x : ℕ) : ViewOp → Outcome
  | .slice first last step => slice w x first last step
  | .transpose => transpose w x
  | .viewAs shape => viewAs w x shape

/-! ## What the operations are for -/

/-- The elements that a chain of operations selects: the dimension of the next slice, the lengths, and the
index of the original array for each index. -/
structure Selection where
  dim : ℕ
  shape : List ℕ
  index : List ℕ → List ℕ

/-- A bound of a slice, counted from the length if it is negative. -/
def bound (n : ℕ) (i : ℤ) : ℤ := if i < 0 then n + i else i

/-- The number of elements from `first` to `last`. -/
def extent (n : ℕ) (first last : ℤ) (step : ℕ) : ℕ := 1 + (bound n last - bound n first).toNat / step

namespace Selection

/-- The length of the dimension of the next slice. -/
def length (s : Selection) : ℕ := s.shape.getD s.dim 0

def next (s : Selection) : ViewOp → Selection
  | .slice first last step =>
    { dim := if s.dim + 1 = s.shape.length then 0 else s.dim + 1
      shape := s.shape.set s.dim (extent s.length first last step)
      index := fun idx => s.index (idx.modify s.dim fun i => (bound s.length first).toNat + i * step) }
  | .transpose => { dim := 0, shape := s.shape.reverse, index := fun idx => s.index idx.reverse }
  | .viewAs shape => { dim := 0, shape := shape, index := fun idx => s.index (coords s.shape (flatIndex shape idx)) }

/-- The bounds of a slice are `int`s within the dimension; a new shape has as many elements. -/
def Admits (s : Selection) : ViewOp → Prop
  | .slice first last step => FitsInt32 first ∧ FitsInt32 last ∧ s.dim < s.shape.length ∧ 0 ≤ bound s.length first ∧
    bound s.length first ≤ bound s.length last ∧ bound s.length last < s.length ∧ 0 < step
  | .transpose => True
  | .viewAs shape => shape.prod = s.shape.prod

instance (s : Selection) (op : ViewOp) : Decidable (s.Admits op) := by
  cases op <;> unfold Admits <;> infer_instance

end Selection

/-- The view shows the selected elements of the original array. -/
def Shows (orig v : BhView) (s : Selection) : Prop :=
  v.base = orig.base ∧ v.shape = s.shape ∧ ∀ idx ∈ indices s.shape, v.offset idx = orig.offset (s.index idx)

/-! ## The condition -/

/-- When an operation on the view `v` shows the right elements. Of an empty view only the lengths matter. -/
def StepOk (v : BhView) (dim : ℕ) : ViewOp → Prop
  | .slice first last step =>
    let d := v.dims.getD dim ⟨0, 0⟩
    -- the number of elements survives the 32 bits of the difference
    (toInt32 (bound d.shape last - bound d.shape first) % 2 ^ 64).toNat / step =
      (bound d.shape last - bound d.shape first).toNat / step ∧
    (0 ∉ v.shape → FitsInt32 (v.start + d.stride * bound d.shape first) ∧
      (1 < extent d.shape first last step → Int.bmod (toInt32 d.stride * step) (2 ^ 64) = d.stride * step) ∧
      Alike (v.dims.eraseIdx dim) ((rowMajor v.shape).eraseIdx dim))
  | .transpose => 0 ∉ v.shape → v.start = 0
  | .viewAs _ => 0 ∉ v.shape → Plain v

/-! ## What the code does -/

/-- The view that the code makes. -/
def codeView (v : BhView) (dim : ℕ) : ViewOp → BhView
  | .slice first last step =>
    let d := v.dims.getD dim ⟨0, 0⟩
    let first := if first < 0 then toInt32 (toInt32 d.shape + first) else first
    let last := if last < 0 then toInt32 (toInt32 d.shape + last) else last
    { v with
      start := toInt32 (toInt32 v.start + toInt32 (toInt32 d.stride * first))
      dims := (rowMajor v.shape).set dim
        ⟨1 + (toInt32 (last - first) % 2 ^ 64).toNat / step, Int.bmod (toInt32 d.stride * step) (2 ^ 64)⟩ }
  | .transpose => { v with start := 0, dims := v.dims.reverse }
  | .viewAs shape => { v with start := 0, dims := rowMajor shape }

/-! ## 32 bits -/

theorem toInt32_modEq (x : ℤ) : toInt32 x ≡ x [ZMOD 4294967296] := toInt32_emod x

theorem narrowed_bound (n : ℕ) (i : ℤ) : (if i < 0 then toInt32 (toInt32 n + i) else i) ≡ bound n i [ZMOD 4294967296] := by
  unfold bound
  split_ifs
  · exact (toInt32_modEq _).trans ((toInt32_modEq _).add_right i)
  · exact Int.ModEq.refl i

/-- The narrowed start is the narrowed sum, whatever was narrowed on the way. -/
theorem codeView_slice (v : BhView) (dim : ℕ) (first last : ℤ) (step : ℕ) :
    let d := v.dims.getD dim ⟨0, 0⟩
    codeView v dim (.slice first last step) = { v with
      start := toInt32 (v.start + d.stride * bound d.shape first)
      dims := (rowMajor v.shape).set dim ⟨1 + (toInt32 (bound d.shape last - bound d.shape first) % 2 ^ 64).toNat / step,
        Int.bmod (toInt32 d.stride * step) (2 ^ 64)⟩ } := by
  intro d
  have hstart : toInt32 (toInt32 v.start + toInt32 (toInt32 d.stride *
      if first < 0 then toInt32 (toInt32 d.shape + first) else first)) = toInt32 (v.start + d.stride * bound d.shape first) :=
    toInt32_congr ((toInt32_modEq _).add
      ((toInt32_modEq _).trans ((toInt32_modEq _).mul (narrowed_bound d.shape first))))
  have hcount : toInt32 ((if last < 0 then toInt32 (toInt32 d.shape + last) else last) -
      if first < 0 then toInt32 (toInt32 d.shape + first) else first) =
      toInt32 (bound d.shape last - bound d.shape first) :=
    toInt32_congr ((narrowed_bound d.shape last).sub (narrowed_bound d.shape first))
  unfold codeView
  dsimp only
  rw [hstart, hcount]

/-! ## Index tuples -/

theorem modify_mem_indices {ns idx : List ℕ} {k len first step : ℕ} (hk : k < ns.length)
    (hlast : ∀ i < len, first + i * step < ns.getD k 0) (h : idx ∈ indices (ns.set k len)) :
    idx.modify k (fun i => first + i * step) ∈ indices ns := by
  rw [mem_indices] at h ⊢
  induction ns generalizing k idx with
  | nil => cases hk
  | cons n ns ih =>
    cases k with
    | zero =>
      cases h with
      | cons hi hrest => exact List.Forall₂.cons (hlast _ hi) hrest
    | succ k =>
      cases h with
      | cons hi hrest => exact List.Forall₂.cons hi (ih (Nat.lt_of_succ_lt_succ hk) hlast hrest)

theorem alike_set {ds es : List Dim} {k : ℕ} {p q : Dim} (hds : k < ds.length) (hes : k < es.length) :
    Alike (ds.set k p) (es.set k q) ↔
      (p.shape = q.shape ∧ (1 < p.shape → p.stride = q.stride)) ∧ Alike (ds.eraseIdx k) (es.eraseIdx k) := by
  unfold Alike
  induction ds generalizing es k with
  | nil => cases hds
  | cons d ds ih =>
    obtain ⟨e, es, rfl⟩ := List.exists_cons_of_length_pos (Nat.zero_lt_of_lt hes)
    cases k with
    | zero => exact List.forall₂_cons
    | succ k =>
      rw [List.set_cons_succ, List.set_cons_succ, List.eraseIdx_cons_succ, List.eraseIdx_cons_succ, List.forall₂_cons,
        List.forall₂_cons, ih (Nat.lt_of_succ_lt_succ hds) (Nat.lt_of_succ_lt_succ hes)]
      exact and_left_comm

theorem exists_mem_indices {ns : List ℕ} (h : 0 ∉ ns) : ∃ idx, idx ∈ indices ns := by
  apply List.exists_mem_of_length_pos
  rw [length_indices]
  exact Nat.pos_of_ne_zero (mt List.prod_eq_zero_iff.mp h)

theorem not_mem_indices {ns idx : List ℕ} (h : 0 ∈ ns) : idx ∉ indices ns := by
  intro hidx
  have hlen := List.length_pos_of_mem hidx
  rw [length_indices, List.prod_eq_zero_iff.mpr h] at hlen
  exact lt_irrefl 0 hlen

/-! ## One operation -/

variable {orig v : BhView} {s : Selection}

theorem pos_of_zero_not_mem (h : 0 ∉ v.shape) : ∀ d ∈ v.dims, 0 < d.shape := by
  intro d hd
  apply Nat.pos_of_ne_zero
  intro hzero
  exact h (hzero ▸ List.mem_map_of_mem hd)

/-- The lengths of a slice, and where its bounds lie. -/
theorem slice_bounds {first last : ℤ} {step : ℕ} (hv : v.shape = s.shape) (ha : s.Admits (.slice first last step)) :
    ∃ d, v.dims[s.dim]? = some d ∧ d.shape = s.length ∧ v.dims.getD s.dim ⟨0, 0⟩ = d ∧
      ((bound d.shape first).toNat : ℤ) = bound d.shape first ∧
      ∀ i < extent d.shape first last step, (bound d.shape first).toNat + i * step < s.shape.getD s.dim 0 := by
  obtain ⟨_, _, hdim, hfirst, hle, hlast, hstep⟩ := ha
  have hlt : s.dim < v.dims.length := by
    have hlen := congrArg List.length hv
    rw [BhView.shape, List.length_map] at hlen
    omega
  have hget : v.dims[s.dim]? = some v.dims[s.dim] := List.getElem?_eq_getElem hlt
  have hshape : v.dims[s.dim].shape = s.length := by
    rw [Selection.length, ← hv, BhView.shape, List.getD_eq_getElem?_getD, List.getElem?_map, hget]
    rfl
  refine ⟨v.dims[s.dim], hget, hshape, ?_, ?_, ?_⟩
  · rw [List.getD_eq_getElem?_getD, hget]
    rfl
  · rw [hshape]
    exact Int.toNat_of_nonneg hfirst
  · intro i hi
    rw [hshape] at hi ⊢
    unfold extent at hi
    have hmul : i * step ≤ (bound s.length last - bound s.length first).toNat :=
      (Nat.mul_le_mul_right step (by omega)).trans (Nat.div_mul_le_self _ _)
    change _ < s.length
    omega

theorem zero_mem_set {ns : List ℕ} {k n : ℕ} (h : 0 ∈ ns) (hk : ns.getD k 0 ≠ 0) : 0 ∈ ns.set k n := by
  obtain ⟨j, hj⟩ := List.mem_iff_getElem?.mp h
  apply List.mem_iff_getElem?.mpr
  refine ⟨j, ?_⟩
  rw [List.getElem?_set_ne, hj]
  rintro rfl
  rw [List.getD_eq_getElem?_getD, hj] at hk
  exact hk rfl

/-- A nonempty slice shows the right elements exactly if its start and its strides are right. -/
theorem offset_slice_iff {first last : ℤ} {step : ℕ} (h : Shows orig v s) (ha : s.Admits (.slice first last step))
    (hzero : 0 ∉ v.shape) {d : Dim} (hd : v.dims.getD s.dim ⟨0, 0⟩ = d) (start stride : ℤ) :
    (∀ idx ∈ indices (s.next (.slice first last step)).shape, start + dot ((rowMajor v.shape).set s.dim
        ⟨extent d.shape first last step, stride⟩) idx = orig.offset ((s.next (.slice first last step)).index idx)) ↔
      start = v.start + d.stride * bound d.shape first ∧
        (1 < extent d.shape first last step → stride = d.stride * step) ∧
        Alike (v.dims.eraseIdx s.dim) ((rowMajor v.shape).eraseIdx s.dim) := by
  obtain ⟨_, hv, hoff⟩ := h
  obtain ⟨d', hget, hshape, hgetD, hfirst, hlast⟩ := slice_bounds hv ha
  obtain rfl : d' = d := hgetD.symm.trans hd
  have hdim : s.dim < s.shape.length := ha.2.2.1
  have hdims : s.dim < v.dims.length := (List.getElem?_eq_some_iff.mp hget).1
  have hrow : s.dim < (rowMajor v.shape).length := by rw [length_rowMajor, hv]; exact hdim
  have hnext : (s.next (.slice first last step)).shape = s.shape.set s.dim (extent d'.shape first last step) := by
    rw [Selection.next, hshape]
  have hleft : ((rowMajor v.shape).set s.dim ⟨extent d'.shape first last step, stride⟩).map Dim.shape =
      (s.next (.slice first last step)).shape := by
    rw [hnext, List.map_set, shape_rowMajor, hv]
  have hright : (v.dims.set s.dim ⟨extent d'.shape first last step, d'.stride * step⟩).map Dim.shape =
      (s.next (.slice first last step)).shape := by
    rw [hnext, List.map_set, ← hv]
    rfl
  have hpos : ∀ e ∈ (rowMajor v.shape).set s.dim ⟨extent d'.shape first last step, stride⟩, 0 < e.shape := by
    intro e he
    rcases List.mem_or_eq_of_mem_set he with he | rfl
    · apply Nat.pos_of_ne_zero
      intro h0
      have hmem : e.shape ∈ (rowMajor v.shape).map Dim.shape := List.mem_map_of_mem he
      rw [shape_rowMajor, h0] at hmem
      exact hzero hmem
    · exact Nat.lt_of_lt_of_le Nat.zero_lt_one (Nat.le_add_right _ _)
  have hshows := shows_iff hpos (hleft.trans hright.symm) start (v.start + d'.stride * bound d'.shape first)
  rw [hleft, alike_set hrow hdims] at hshows
  refine Iff.trans (forall₂_congr fun idx hidx => ?_) (hshows.trans ?_)
  · -- the index map of the slice is the layout with the stepped stride
    rw [hnext] at hidx
    have hmem := modify_mem_indices hdim hlast hidx
    have hlen : idx.length = v.dims.length := by
      have h1 := (mem_indices.mp hidx).length_eq
      have h2 := congrArg List.length hv
      rw [List.length_set] at h1
      rw [BhView.shape, List.length_map] at h2
      omega
    have hright : orig.offset ((s.next (.slice first last step)).index idx) =
        v.start + d'.stride * bound d'.shape first +
          dot (v.dims.set s.dim ⟨extent d'.shape first last step, d'.stride * step⟩) idx := by
      show orig.offset (s.index (idx.modify s.dim fun i => (bound s.length first).toNat + i * step)) = _
      rw [← hshape, ← hoff _ hmem, BhView.offset, dot_modify hget hlen (extent d'.shape first last step), hfirst]
      ring
    rw [hright]
  · refine and_congr_right fun _ => and_congr (and_iff_right rfl) ⟨Alike.symm, Alike.symm⟩

theorem shows_slice {first last : ℤ} {step : ℕ} (h : Shows orig v s) (ha : s.Admits (.slice first last step)) :
    Shows orig (codeView v s.dim (.slice first last step)) (s.next (.slice first last step)) ↔
      StepOk v s.dim (.slice first last step) := by
  obtain ⟨d, hget, hshape, hgetD, _, _⟩ := slice_bounds h.2.1 ha
  have hdim : s.dim < s.shape.length := ha.2.2.1
  have hpos : s.shape.getD s.dim 0 ≠ 0 := by
    have hbound : 0 ≤ bound s.length first ∧ bound s.length first ≤ bound s.length last ∧ bound s.length last < s.length :=
      ⟨ha.2.2.2.1, ha.2.2.2.2.1, ha.2.2.2.2.2.1⟩
    change s.length ≠ 0
    omega
  have hoffset := fun hzero => offset_slice_iff h ha hzero hgetD
  rw [codeView_slice, hgetD]
  unfold Shows StepOk
  dsimp only
  rw [hgetD, and_iff_right h.1]
  -- the lengths agree exactly if the number of elements does
  have hnext : (s.next (.slice first last step)).shape = s.shape.set s.dim (extent d.shape first last step) := by
    rw [Selection.next, hshape]
  have hlengths : ∀ n : ℕ, BhView.shape ⟨v.base, toInt32 (v.start + d.stride * bound d.shape first),
      (rowMajor v.shape).set s.dim ⟨1 + n, Int.bmod (toInt32 d.stride * step) (2 ^ 64)⟩⟩ =
        (s.next (.slice first last step)).shape ↔ n = (bound d.shape last - bound d.shape first).toNat / step := by
    intro n
    rw [BhView.shape, List.map_set, shape_rowMajor, h.2.1, hnext]
    constructor
    · intro heq
      have hget := congrArg (fun l => l[s.dim]?) heq
      rw [List.getElem?_set_self hdim, List.getElem?_set_self hdim] at hget
      exact Nat.add_left_cancel (Option.some.inj hget)
    · rintro rfl
      rfl
  rw [hlengths]
  refine and_congr_right fun hcount => ?_
  rw [hcount]
  by_cases hzero : 0 ∈ v.shape
  · refine iff_of_true (fun idx hidx => ?_) fun hno => absurd hzero hno
    rw [hnext] at hidx
    exact absurd hidx (not_mem_indices (zero_mem_set (h.2.1 ▸ hzero) hpos))
  · rw [imp_iff_right hzero, ← toInt32_eq_self_iff]
    exact hoffset hzero _ _

theorem shows_transpose (h : Shows orig v s) :
    Shows orig (codeView v s.dim .transpose) (s.next .transpose) ↔ StepOk v s.dim .transpose := by
  obtain ⟨hbase, hv, hoff⟩ := h
  have hshape : (codeView v s.dim .transpose).shape = s.shape.reverse := by
    rw [← hv]
    exact List.map_reverse
  have hoffset : ∀ idx ∈ indices s.shape.reverse, ((codeView v s.dim .transpose).offset idx = orig.offset (s.index idx.reverse) ↔
      v.start = 0) := by
    intro idx hidx
    have hmem : idx.reverse ∈ indices s.shape := by
      rw [mem_indices] at hidx ⊢
      rw [← List.reverse_reverse s.shape]
      exact List.forall₂_reverse_iff.mpr hidx
    have hlen : idx.reverse.length = v.dims.length := by
      have h1 := (mem_indices.mp hmem).length_eq
      have h2 := congrArg List.length hv
      rw [BhView.shape, List.length_map] at h2
      omega
    have hdot := dot_reverse hlen
    rw [List.reverse_reverse] at hdot
    rw [← hoff _ hmem]
    show 0 + dot v.dims.reverse idx = v.start + dot v.dims idx.reverse ↔ _
    rw [hdot]
    omega
  unfold Shows StepOk
  refine (and_iff_right hbase).trans ((and_iff_right hshape).trans ?_)
  rw [hv]
  constructor
  · intro h hzero
    obtain ⟨idx, hidx⟩ := exists_mem_indices (show 0 ∉ s.shape.reverse by simpa using hzero)
    exact (hoffset idx hidx).mp (h idx hidx)
  · intro h idx hidx
    refine (hoffset idx hidx).mpr (h fun hzero => ?_)
    have hrev : 0 ∈ s.shape.reverse := by simpa using hzero
    exact not_mem_indices hrev hidx

theorem dot_rowMajor (ns idx : List ℕ) : dot (rowMajor ns) idx = flatIndex ns idx := by
  induction ns generalizing idx with
  | nil => cases idx <;> rfl
  | cons n ns ih =>
    cases idx with
    | nil => rfl
    | cons i idx => simp [rowMajor, dot, flatIndex, ih]

/-- A nonempty view shows the row-major sequence exactly if it is plain. -/
theorem plain_iff (hzero : 0 ∉ v.shape) : Plain v ↔ ∀ idx ∈ indices v.shape, v.offset idx = flatIndex v.shape idx := by
  have hshows := shows_iff (pos_of_zero_not_mem hzero) (shape_rowMajor v.shape).symm v.start 0
  rw [Plain, ← hshows]
  refine forall₂_congr fun idx _ => ?_
  rw [dot_rowMajor, zero_add]
  rfl

theorem shows_viewAs {shape : List ℕ} (h : Shows orig v s) (ha : s.Admits (.viewAs shape)) :
    Shows orig (codeView v s.dim (.viewAs shape)) (s.next (.viewAs shape)) ↔ StepOk v s.dim (.viewAs shape) := by
  obtain ⟨hbase, hv, hoff⟩ := h
  have hprod : shape.prod = s.shape.prod := ha
  have hcoords : ∀ idx ∈ indices shape, coords s.shape (flatIndex shape idx) ∈ indices s.shape := by
    intro idx hidx
    apply coords_mem
    have hget := (List.getElem?_eq_some_iff.mp (getElem?_flatIndex hidx)).1
    rwa [length_indices, hprod] at hget
  have hoffset : ∀ idx ∈ indices shape, ((codeView v s.dim (.viewAs shape)).offset idx =
      orig.offset ((s.next (.viewAs shape)).index idx) ↔
        v.offset (coords s.shape (flatIndex shape idx)) = flatIndex s.shape (coords s.shape (flatIndex shape idx))) := by
    intro idx hidx
    have hlt := (List.getElem?_eq_some_iff.mp (getElem?_flatIndex hidx)).1
    rw [length_indices, hprod] at hlt
    rw [flatIndex_coords hlt, hoff _ (hcoords idx hidx)]
    show 0 + dot (rowMajor shape) idx = orig.offset (s.index (coords s.shape (flatIndex shape idx))) ↔ _
    rw [dot_rowMajor, zero_add, eq_comm]
  unfold Shows StepOk
  refine (and_iff_right hbase).trans ((and_iff_right (shape_rowMajor shape)).trans ?_)
  rw [hv]
  constructor
  · intro h hzero
    rw [plain_iff (hv ▸ hzero), hv]
    intro idx hidx
    -- every index of the old shape is the image of one of the new shape
    have hlt := (List.getElem?_eq_some_iff.mp (getElem?_flatIndex hidx)).1
    rw [length_indices, ← hprod] at hlt
    have hmem := coords_mem hlt
    have := (hoffset _ hmem).mp (h _ hmem)
    rwa [flatIndex_coords hlt, coords_flatIndex hidx] at this
  · intro h idx hidx
    have hzero : 0 ∉ s.shape := by
      intro h0
      rw [List.prod_eq_zero_iff.mpr h0, List.prod_eq_zero_iff] at hprod
      exact not_mem_indices hprod hidx
    have hplain := h hzero
    rw [plain_iff (hv ▸ hzero), hv] at hplain
    exact (hoffset idx hidx).mpr (hplain _ (hcoords idx hidx))

theorem shows_next {op : ViewOp} (h : Shows orig v s) (ha : s.Admits op) :
    Shows orig (codeView v s.dim op) (s.next op) ↔ StepOk v s.dim op := by
  cases op with
  | slice first last step => exact shows_slice h ha
  | transpose => exact shows_transpose h
  | viewAs shape => exact shows_viewAs h ha

/-! ## Chains -/

/-- A point of a chain: the bridge, the array that the last operation returned, and what it should show. -/
structure Point where
  bridge : Bridge
  array : ℕ
  selection : Selection

/-- The next operation, if it is one for the lengths that the array should have. -/
def Point.call (p : Point) (op : ViewOp) : Option Point :=
  let o := p.bridge.apply p.array op
  if p.selection.Admits op ∧ o.thrown = false then
    o.value.map fun y => ⟨o.state, y, p.selection.next op⟩
  else none

/-- The array `x`, which shows its own elements. -/
def start (w : Bridge) (x : ℕ) (a : MultiArray) : Point := ⟨w, x, ⟨(a.sliceDim + 1).toNat, a.view.shape, id⟩⟩

theorem array?_deleteTemp {w : Bridge} {x y : ℕ} (h : y ≠ x) : (w.deleteTemp x).array? y = w.array? y := by
  unfold Bridge.deleteTemp
  split_ifs
  · rw [Bridge.array?, Bridge.array?, Bridge.destroy]
    dsimp only
    rw [Bridge.arrays_dropReference, List.getElem?_set_ne (Ne.symm h)]
  · rfl

/-- The array that a view operation makes is there, also after a temporary operand is deleted. -/
theorem array?_tempView {w : Bridge} {x : ℕ} {a : MultiArray} (ha : w.array? x = some a) (start : ℤ) (dims : List Dim)
    (sliceDim : ℤ) : (w.tempView x start dims sliceDim).1.array? (w.tempView x start dims sliceDim).2 =
        some ⟨a.type, ⟨a.view.base, start, dims⟩, true, sliceDim⟩ ∧
      ((w.tempView x start dims sliceDim).1.deleteTemp x).array? (w.tempView x start dims sliceDim).2 =
        some ⟨a.type, ⟨a.view.base, start, dims⟩, true, sliceDim⟩ := by
  have hself : (w.tempView x start dims sliceDim).1.array? (w.tempView x start dims sliceDim).2 =
      some ⟨a.type, ⟨a.view.base, start, dims⟩, true, sliceDim⟩ := by
    rw [array?_append (arrays_tempView ha start dims sliceDim), if_pos (tempView_snd ha start dims sliceDim)]
  refine ⟨hself, ?_⟩
  rw [array?_deleteTemp, hself]
  rw [tempView_snd ha]
  exact (Nat.ne_of_lt (lt_of_array? ha)).symm

theorem apply_spec {w : Bridge} {x : ℕ} {a : MultiArray} {s : Selection} {op : ViewOp} (ha : w.array? x = some a)
    (hbase : a.view.base.isSome = true) (hdim : s.dim = (a.sliceDim + 1).toNat) (hshape : a.view.shape = s.shape)
    (hadmits : s.Admits op) : ∃ y b, (w.apply x op).thrown = false ∧ (w.apply x op).value = some y ∧
      (w.apply x op).state.array? y = some b ∧ b.view = codeView a.view s.dim op ∧
      (s.next op).dim = (b.sliceDim + 1).toNat := by
  obtain ⟨base, hb⟩ := Option.isSome_iff_exists.mp hbase
  have hview : w.view x = a.view := by
    rw [Bridge.view, ha]
    rfl
  have hbase? : (w.base? x).isNone = false := by
    rw [Bridge.base?, hview, hb]
    rfl
  have hlen : s.shape.length = a.view.ndim := by
    rw [← hshape, BhView.shape, List.length_map, BhView.ndim]
  cases op with
  | slice first last step =>
    obtain ⟨d, hget, _, hgetD, _, _⟩ := slice_bounds hshape hadmits
    have hlt : s.dim < s.shape.length := hadmits.2.2.1
    unfold Bridge.apply
    dsimp only
    unfold slice
    rw [ha]
    dsimp only
    rw [← hdim, hb, hget]
    dsimp only
    refine ⟨_, _, rfl, rfl, (array?_tempView ha _ _ _).2, ?_, ?_⟩
    · unfold codeView
      dsimp only
      rw [hgetD]
    · dsimp only [Selection.next]
      by_cases hlast : s.dim + 1 = s.shape.length
      · rw [if_pos hlast, if_pos (by omega)]
        rfl
      · rw [if_neg hlast, if_neg (by omega)]
        omega
  | transpose =>
    unfold Bridge.apply
    dsimp only
    unfold transpose
    rw [hbase?, hview]
    exact ⟨_, _, rfl, rfl, (array?_tempView ha _ _ _).1, rfl, rfl⟩
  | viewAs shape =>
    have hcount : shape.prod = bhNelements (w.view x) := by
      rw [hview, bhNelements, hshape]
      exact hadmits
    unfold Bridge.apply
    dsimp only
    unfold viewAs
    rw [hbase?]
    dsimp only
    rw [if_pos hcount]
    exact ⟨_, _, rfl, rfl, (array?_tempView ha _ _ _).2, rfl, rfl⟩

/-- The array of the point shows what it should. -/
def Point.Right (orig : BhView) (p : Point) : Prop := Shows orig (p.bridge.view p.array) p.selection

/-- The operation is one for which the code is right, on the view that it finds. -/
def Point.Ok (p : Point) (op : ViewOp) : Prop :=
  p.selection.Admits op → StepOk (p.bridge.view p.array) p.selection.dim op

/-- The invariant of a chain that has been right so far. -/
structure Point.Linked (orig : BhView) (p : Point) : Prop where
  shows : p.Right orig
  array : ∃ a, p.bridge.array? p.array = some a ∧ a.view.base.isSome = true ∧ p.selection.dim = (a.sliceDim + 1).toNat

theorem Point.Linked.call {p : Point} {op : ViewOp} (h : p.Linked orig) (hadmits : p.selection.Admits op) :
    ∃ q, p.call op = some q ∧ (q.Right orig ↔ p.Ok op) ∧ (q.Right orig → q.Linked orig) := by
  obtain ⟨a, ha, hbase, hdim⟩ := h.array
  have hview : p.bridge.view p.array = a.view := by
    rw [Bridge.view, ha]
    rfl
  have hshows : Shows orig a.view p.selection := hview ▸ h.shows
  obtain ⟨y, b, hthrown, hvalue, hb, hcode, hnext⟩ := apply_spec ha hbase hdim hshows.2.1 hadmits
  have hviewb : (p.bridge.apply p.array op).state.view y = b.view := by
    rw [Bridge.view, hb]
    rfl
  refine ⟨⟨(p.bridge.apply p.array op).state, y, p.selection.next op⟩, ?_, ?_, ?_⟩
  · unfold Point.call
    dsimp only
    rw [if_pos ⟨hadmits, hthrown⟩, hvalue]
    rfl
  · unfold Point.Right Point.Ok
    rw [hviewb, hcode, shows_next hshows hadmits, hview]
    exact (imp_iff_right hadmits).symm
  · intro hright
    refine ⟨hright, b, hb, ?_, hnext⟩
    rw [hcode]
    cases op <;> exact hbase

/-- Every view along a chain of operations shows what the chain selects from the array exactly if each
operation finds a view for which it is right. -/
theorem chain_iff (w : Bridge) (x : ℕ) (a : MultiArray) (ops : List ViewOp) (ha : w.array? x = some a)
    (hbase : a.view.base.isSome = true) :
    Throughout Point.call (Point.Right a.view) (fun _ _ => True) (start w x a) ops ↔
      Throughout Point.call (fun _ => True) Point.Ok (start w x a) ops := by
  have hview : w.view x = a.view := by
    rw [Bridge.view, ha]
    rfl
  refine throughout_iff (I := Point.Linked a.view) ?_ ?_ ?_ ⟨?_, a, ha, hbase, rfl⟩
  · intro p hp
    exact iff_true_intro hp.shows
  · intro p op hp hok
    refine ⟨trivial, fun q hq => ?_⟩
    have hadmits : p.selection.Admits op := by
      by_contra hno
      unfold Point.call at hq
      dsimp only at hq
      rw [if_neg fun h => hno h.1] at hq
      cases hq
    obtain ⟨q', hq', hright, hlinked⟩ := hp.call hadmits
    obtain rfl := Option.some.inj (hq.symm.trans hq')
    exact hlinked (hright.mpr hok)
  · intro p op hp _ hnext hadmits
    obtain ⟨q, hq, hright, _⟩ := hp.call hadmits
    exact hright.mp (hnext q hq) hadmits
  · unfold Point.Right start
    rw [hview]
    exact ⟨rfl, rfl, fun idx _ => rfl⟩

/-- A 2 x 3 matrix in row-major order. -/
def matrix : MultiArray := ⟨.int64, ⟨some ⟨0, .int64, 6⟩, 0, [⟨2, 3⟩, ⟨3, 1⟩]⟩, false, -1⟩

/-- Rows 0 to 1, then columns 1 to 2 of them. -/
theorem chain_matrix : Throughout Point.call (Point.Right matrix.view) (fun _ _ => True) (start matrices 0 matrix)
    [.slice 0 1 1, .slice 1 (-1) 1] := by
  apply (chain_iff matrices 0 matrix _ (by decide) (by decide)).mpr
  refine ⟨trivial, fun _ => ⟨by decide, fun _ => by decide⟩, fun p hp => ?_⟩
  obtain rfl := Option.some.inj hp
  exact ⟨trivial, fun _ => ⟨by decide, fun _ => by decide⟩, fun _ _ => trivial⟩

/-- The transposition of row 1 shows the elements of row 0. -/
theorem not_chain_matrix : ¬ Throughout Point.call (Point.Right matrix.view) (fun _ _ => True) (start matrices 0 matrix)
    [.slice 1 1 1, .transpose] := by
  rintro ⟨_, _, h⟩
  obtain ⟨_, _, h⟩ := h _ rfl
  have hfirst := (h _ rfl).2.2 [0, 0] (by decide)
  exact absurd hfirst (by decide)

end Bohrium.Bxx
