import Bohrium.Cluster.Regular
import Bohrium.Cluster.Reduce
import Bohrium.Filter.BcconSound

/-! # Reducing box by box

The boxes that have elements of one output element along the axis hold each of these elements once. So
the total of the boxes' totals is the reduction, in whatever order the boxes are taken; and exactly one
of the boxes lies at the beginning of the axis. -/
namespace Bohrium.Cluster
open Strided
set_option autoImplicit false

/-! ## The elements of an output element -/

/-- The index tuples of a box that are reduced to an output index. -/
def boxFibre (axis : ℕ) (p : List ℕ × List ℕ) (o : List ℕ) : List (List ℕ) :=
  (boxIndices p).filter fun idx => reduceIndex axis idx == o

theorem mem_boxFibre {axis : ℕ} {p : List ℕ × List ℕ} {o x : List ℕ} :
    x ∈ boxFibre axis p o ↔ x ∈ boxIndices p ∧ reduceIndex axis x = o := by
  rw [boxFibre, List.mem_filter, beq_iff_eq]

theorem zipWith_add_inj {lo x y : List ℕ} (hx : lo.length = x.length) (hy : lo.length = y.length)
    (h : List.zipWith (· + ·) lo x = List.zipWith (· + ·) lo y) : x = y := by
  induction lo generalizing x y with
  | nil =>
    rw [List.eq_nil_of_length_eq_zero hx.symm, List.eq_nil_of_length_eq_zero hy.symm]
  | cons l lo ih =>
    cases x with
    | nil => cases hx
    | cons a x =>
      cases y with
      | nil => cases hy
      | cons c y =>
        rw [List.zipWith_cons_cons, List.zipWith_cons_cons, List.cons.injEq] at h
        rw [Nat.add_left_cancel h.1, ih (by simpa using hx) (by simpa using hy) h.2]

theorem nodup_boxIndices {p : List ℕ × List ℕ} (hlen : p.1.length = p.2.length) : (boxIndices p).Nodup := by
  refine (nodup_indices p.2).map_on fun x hx y hy h => ?_
  exact zipWith_add_inj (hlen.trans (mem_indices.mp hx).length_eq.symm)
    (hlen.trans (mem_indices.mp hy).length_eq.symm) h

section Tiled
variable {boxes : List (List ℕ × List ℕ)} {shape : List ℕ}

theorem perm_boxIndices (hlen : ∀ p ∈ boxes, p.1.length = p.2.length)
    (h : Box.Tiles (boxes.map fun p => (p.1, List.zipWith (· + ·) p.1 p.2)) (List.replicate shape.length 0) shape) :
    (boxes.flatMap boxIndices).Perm (indices shape) := by
  have hnodup : (boxes.flatMap boxIndices).Nodup := by
    rw [List.nodup_flatMap]
    refine ⟨fun p hp => nodup_boxIndices (hlen p hp), ?_⟩
    refine (List.pairwise_map.mp h.disjoint).imp_of_mem fun {p q} hp hq hdis x hx hx' => ?_
    exact hdis x ((mem_boxIndices (hlen p hp)).mp hx) ((mem_boxIndices (hlen q hq)).mp hx')
  rw [List.perm_ext_iff_of_nodup hnodup (nodup_indices shape)]
  exact fun x => mem_flatMap_boxIndices hlen h

/-- The boxes hold each element of an output element once. -/
theorem perm_boxFibre (hlen : ∀ p ∈ boxes, p.1.length = p.2.length)
    (h : Box.Tiles (boxes.map fun p => (p.1, List.zipWith (· + ·) p.1 p.2)) (List.replicate shape.length 0) shape)
    (axis : ℕ) (o : List ℕ) : (boxes.flatMap fun p => boxFibre axis p o).Perm
      ((indices shape).filter fun idx => reduceIndex axis idx == o) := by
  unfold boxFibre
  rw [← List.filter_flatMap]
  exact (perm_boxIndices hlen h).filter _

end Tiled

/-! ## Faces -/

/-- A box inside an index space with more than one dimension. -/
structure FaceBox (axis : ℕ) (shape : List ℕ) (p : List ℕ × List ℕ) : Prop where
  ndim : shape.length ≠ 1
  axis_lt : axis < shape.length
  corner : p.1.length = shape.length
  lengths : p.2.length = shape.length
  positive : ∀ n ∈ p.2, 1 ≤ n
  inside : ∀ x ∈ boxIndices p, x ∈ indices shape

/-- The side of a box that the output sees. -/
def face (axis : ℕ) (p : List ℕ × List ℕ) : List ℕ × List ℕ := (p.1.eraseIdx axis, p.2.eraseIdx axis)

section Face
variable {axis : ℕ} {shape : List ℕ} {p q : List ℕ × List ℕ} {o x : List ℕ}

theorem getD_zipWith_add {xs ys : List ℕ} (hlen : xs.length = ys.length) (k : ℕ) :
    (List.zipWith (· + ·) xs ys).getD k 0 = xs.getD k 0 + ys.getD k 0 := by
  induction xs generalizing ys k with
  | nil =>
    cases ys with
    | nil => rfl
    | cons y ys => cases hlen
  | cons x xs ih =>
    cases ys with
    | nil => cases hlen
    | cons y ys =>
      cases k with
      | zero => rfl
      | succ k => simpa using ih (by simpa using hlen) k

theorem getD_mem {l : List ℕ} {k : ℕ} (h : k < l.length) : l.getD k 0 ∈ l := by
  rw [List.getD_eq_getElem?_getD, List.getElem?_eq_getElem h]
  exact List.getElem_mem h

theorem reduceIndex_of_length (hx : x.length ≠ 1) : reduceIndex axis x = x.eraseIdx axis := if_neg hx

namespace FaceBox

theorem length_eq (h : FaceBox axis shape p) : p.1.length = p.2.length := h.corner.trans h.lengths.symm

theorem length_mem (h : FaceBox axis shape p) (hx : x ∈ boxIndices p) : x.length = shape.length :=
  (mem_indices.mp (h.inside x hx)).length_eq

/-- A point of a box, by its coordinate along the axis and the point of the face. -/
theorem mem_insertIdx (h : FaceBox axis shape p) (k : ℕ) : o.insertIdx axis k ∈ boxIndices p ↔
    (p.1.getD axis 0 ≤ k ∧ k < p.1.getD axis 0 + p.2.getD axis 0) ∧ o ∈ boxIndices (face axis p) := by
  have haxis : axis < p.1.length := h.corner ▸ h.axis_lt
  have hlen : (face axis p).1.length = (face axis p).2.length := by
    rw [face, List.length_eraseIdx_of_lt haxis, List.length_eraseIdx_of_lt (h.length_eq ▸ haxis), h.length_eq]
  rw [mem_boxIndices h.length_eq, mem_boxIndices hlen,
    Box.mem_insertIdx haxis (by rw [List.length_zipWith, ← h.length_eq, Nat.min_self]),
    getD_zipWith_add h.length_eq, Box.eraseIdx_zipWith_add]
  rfl

theorem one_le_getD (h : FaceBox axis shape p) : 1 ≤ p.2.getD axis 0 := by
  have haxis : axis < p.2.length := h.lengths ▸ h.axis_lt
  exact h.positive _ (getD_mem haxis)

/-- The output elements that a box has elements of are those of its face. -/
theorem mem_face_iff (h : FaceBox axis shape p) : o ∈ boxIndices (face axis p) ↔ boxFibre axis p o ≠ [] := by
  constructor
  · intro ho
    have hpos := h.one_le_getD
    have hx := (h.mem_insertIdx (p.1.getD axis 0)).mpr ⟨⟨le_rfl, by omega⟩, ho⟩
    have hlen := h.length_mem hx
    refine List.ne_nil_of_mem (mem_boxFibre.mpr ⟨hx, ?_⟩)
    rw [reduceIndex_of_length (by rw [hlen]; exact h.ndim), List.eraseIdx_insertIdx_self]
  · intro hne
    obtain ⟨x, hx⟩ := List.exists_mem_of_ne_nil _ hne
    obtain ⟨hx, hred⟩ := mem_boxFibre.mp hx
    have hlen := h.length_mem hx
    rw [reduceIndex_of_length (by rw [hlen]; exact h.ndim)] at hred
    have haxis : axis < x.length := hlen ▸ h.axis_lt
    have heq : x = o.insertIdx axis (x.get ⟨axis, haxis⟩) := by
      rw [← hred]
      exact (List.insertIdx_eraseIdx_getElem haxis).symm
    rw [heq] at hx
    exact ((h.mem_insertIdx _).mp hx).2

theorem mem_reduceShape (h : FaceBox axis shape p) (ho : o ∈ boxIndices (face axis p)) :
    o ∈ indices (reduceShape axis shape) := by
  obtain ⟨x, hx⟩ := List.exists_mem_of_ne_nil _ (h.mem_face_iff.mp ho)
  obtain ⟨hmem, rfl⟩ := mem_boxFibre.mp hx
  exact reduceIndex_mem (h.inside x hmem)

/-- A box at the beginning of the axis has the first element of each of its output elements. -/
theorem mem_first (h : FaceBox axis shape p) (hfirst : p.1.getD axis 0 = 0) (ho : boxFibre axis p o ≠ []) :
    o.insertIdx axis 0 ∈ boxIndices p := by
  have hpos := h.one_le_getD
  exact (h.mem_insertIdx 0).mpr ⟨by omega, h.mem_face_iff.mpr ho⟩

end FaceBox

/-- Exactly one box at the beginning of the axis has elements of an output element. -/
theorem exists_first {boxes : List (List ℕ × List ℕ)} (hbox : ∀ p ∈ boxes, FaceBox axis shape p)
    (h : Box.Tiles (boxes.map fun p => (p.1, List.zipWith (· + ·) p.1 p.2)) (List.replicate shape.length 0) shape)
    (haxis : axis < shape.length) (hndim : shape.length ≠ 1) (hpos : ∀ n ∈ shape, 1 ≤ n)
    (ho : o ∈ indices (reduceShape axis shape)) :
    ∃ p ∈ boxes, p.1.getD axis 0 = 0 ∧ boxFibre axis p o ≠ [] := by
  rw [reduceShape, if_neg hndim] at ho
  have hins := insertIdx_mem_indices haxis (hpos _ (getD_mem haxis)) ho
  obtain ⟨p, hp, hx⟩ := List.mem_flatMap.mp
    ((mem_flatMap_boxIndices (fun p hp => (hbox p hp).length_eq) h).mpr hins)
  obtain ⟨hk, hface⟩ := ((hbox p hp).mem_insertIdx 0).mp hx
  exact ⟨p, hp, by omega, (hbox p hp).mem_face_iff.mp hface⟩

theorem pairwise_first {boxes : List (List ℕ × List ℕ)} (hbox : ∀ p ∈ boxes, FaceBox axis shape p)
    {lo hi : List ℕ} (h : Box.Tiles (boxes.map fun p => (p.1, List.zipWith (· + ·) p.1 p.2)) lo hi) :
    (boxes.filter fun p => p.1.getD axis 0 == 0).Pairwise fun p q =>
      ∀ o, boxFibre axis p o ≠ [] → boxFibre axis q o = [] := by
  have hall := ((List.pairwise_map.mp h.disjoint).filter fun p => p.1.getD axis 0 == 0)
  refine hall.imp_of_mem fun {p q} hp hq hdis o hpo => ?_
  obtain ⟨hp, hfirst⟩ := List.mem_filter.mp hp
  obtain ⟨hq, hfirst'⟩ := List.mem_filter.mp hq
  by_contra hqo
  refine hdis (o.insertIdx axis 0) ?_ ?_
  · exact (mem_boxIndices (hbox p hp).length_eq).mp ((hbox p hp).mem_first (by simpa using hfirst) hpo)
  · exact (mem_boxIndices (hbox q hq).length_eq).mp ((hbox q hq).mem_first (by simpa using hfirst') hqo)

end Face

/-! ## What a reduction stores -/

theorem reduce_eq_getD_total {V : Type} (I : Interp V) (opcode : BhOpcode) (type : Option BhType)
    [Std.Associative (I.sweep opcode type)] (xs : List V) :
    I.reduce opcode type xs = (Fold.total (I.sweep opcode type) xs).getD (I.neutral opcode) := by
  cases xs with
  | nil => rfl
  | cons x xs =>
    rw [Fold.total_eq_foldl]
    rfl

/-- What the operation of `ufunc_reduce` does to the elements of a type: it is associative and
commutative, and the elementwise operation and the reduction's operation are the same. -/
structure Combines {V : Type} (I : Interp V) (opcode operation : BhOpcode) (type : BhType) : Prop where
  assoc : Std.Associative (I.sweep opcode (some type))
  comm : Std.Commutative (I.sweep opcode (some type))
  ewise : ∀ x y, I.ewise operation [some type, some type, some type] [x, y] = I.sweep opcode (some type) x y

/-- A reduction along an axis: the arrays lie inside their bases and share nothing, the output is
injective and has the shape that is left, no length is zero and each one is a `bh_intp`. The input has
no negative stride, and neither has the output unless it is a scalar. -/
structure Reducible (i : BhInstruction) (b c : BhBase) : Prop where
  output : i.operand0.base = some b
  input : i.operand1.base = some c
  type : c.type = b.type
  axis : i.axis < i.operand1.shape.length
  shape : i.operand0.shape = reduceShape i.axis i.operand1.shape
  positive : ∀ n ∈ i.operand1.shape, 1 ≤ n
  intp : ∀ n ∈ i.operand1.shape, n < 2 ^ 63
  stride : ∀ d ∈ i.operand1.dims, 0 ≤ d.stride
  outStride : i.operand1.ndim ≠ 1 → ∀ d ∈ i.operand0.dims, 0 ≤ d.stride
  injective : i.operand0.Injective
  apart : ¬ BhView.Overlap i.operand0 i.operand1
  outInBase : i.operand0.InBase
  inBase : i.operand1.InBase

/-- An output with one element has all elements of the input. -/
theorem fibre_eq_filter {i : BhInstruction} (hshape : i.operand0.shape = reduceShape i.axis i.operand1.shape)
    (hone : i.isComplete = true → i.operand0.shape.prod = 1) {o : List ℕ} (ho : o ∈ indices i.operand0.shape) :
    i.fibre o = (indices i.operand1.shape).filter fun idx => reduceIndex i.axis idx == o := by
  refine List.filter_congr fun idx hidx => ?_
  cases hc : i.isComplete with
  | false => rw [Bool.false_or]
  | true =>
    have hlen : (indices i.operand0.shape).length = 1 := by rw [length_indices, hone hc]
    obtain ⟨a, ha⟩ := List.length_eq_one_iff.mp hlen
    have hred := @reduceIndex_mem i.axis _ _ hidx
    rw [← hshape, ha, List.mem_singleton] at hred
    rw [ha, List.mem_singleton] at ho
    rw [hred, ho, beq_self_eq_true, Bool.true_or]

theorem one_le_of_reduceShape {axis : ℕ} {shape : List ℕ} (h : ∀ n ∈ shape, 1 ≤ n) :
    ∀ n ∈ reduceShape axis shape, 1 ≤ n := by
  unfold reduceShape
  split_ifs
  · simp
  · exact fun n hn => h n (List.mem_of_mem_eraseIdx hn)

theorem Reducible.isComplete {i : BhInstruction} {b c : BhBase} (h : Reducible i b c) (hc : i.isComplete = true) :
    i.operand0.shape.prod = 1 := by
  have hnelem : b.nelem = 1 := by simpa [BhInstruction.isComplete, h.output] using hc
  -- all offsets are zero, and no two are the same
  have hle : i.operand0.offsets.length ≤ 1 := by
    obtain ⟨b', hb', hall⟩ := h.outInBase
    obtain rfl := Option.some.inj (hb'.symm.trans h.output)
    have hsub : i.operand0.offsets ⊆ [0] := by
      intro x hx
      have := hall x hx
      rw [List.mem_singleton]
      omega
    exact (h.injective.subperm hsub).length_le
  have hpos : i.operand0.shape.prod ≠ 0 := by
    rw [Ne, List.prod_eq_zero_iff]
    intro hzero
    have := one_le_of_reduceShape h.positive 0 (h.shape ▸ hzero)
    omega
  rw [length_offsets, bhNelements] at hle
  omega

section Global
variable {V : Type} {I : Interp V} {i : BhInstruction} {b c : BhBase} {m m' : Mem V}
  {ps : List (List ℕ × List ℕ)} {p : List ℕ × List ℕ} {o : List ℕ}

/-- What the elements in some boxes combine to. -/
def boxTotal (I : Interp V) (i : BhInstruction) (m : Mem V) (ps : List (List ℕ × List ℕ)) (o : List ℕ) : Option V :=
  Fold.total (I.sweep i.opcode i.outType)
    ((ps.flatMap fun p => boxFibre i.axis p o).map fun idx => load I i.constant i.operand1 idx m)

/-- What the process that holds a box of the input computes for an output element. -/
def boxValue (I : Interp V) (i : BhInstruction) (m : Mem V) (p : List ℕ × List ℕ) (o : List ℕ) : V :=
  I.reduce i.opcode i.outType ((boxFibre i.axis p o).map fun idx => load I i.constant i.operand1 idx m)

theorem boxTotal_append [Std.Associative (I.sweep i.opcode i.outType)] (ps qs : List (List ℕ × List ℕ)) :
    boxTotal I i m (ps ++ qs) o = Option.merge (I.sweep i.opcode i.outType) (boxTotal I i m ps o)
      (boxTotal I i m qs o) := by
  rw [boxTotal, List.flatMap_append, List.map_append, Fold.total_append]
  rfl

theorem boxTotal_singleton [Std.Associative (I.sweep i.opcode i.outType)] (ho : boxFibre i.axis p o ≠ []) :
    boxTotal I i m [p] o = some (boxValue I i m p o) := by
  unfold boxTotal boxValue
  rw [List.flatMap_singleton, reduce_eq_getD_total]
  obtain ⟨x, xs, hcons⟩ := List.exists_cons_of_ne_nil ho
  rw [hcons, List.map_cons, Fold.total_eq_foldl]
  rfl

theorem boxTotal_eq_none (h : ∀ p ∈ ps, boxFibre i.axis p o = []) : boxTotal I i m ps o = none := by
  have hnil : (ps.flatMap fun p => boxFibre i.axis p o) = [] := List.flatMap_eq_nil_iff.mpr h
  rw [boxTotal, hnil]
  rfl

theorem boxTotal_isSome [Std.Associative (I.sweep i.opcode i.outType)] (hp : p ∈ ps)
    (ho : boxFibre i.axis p o ≠ []) : (boxTotal I i m ps o).isSome := by
  unfold boxTotal
  obtain ⟨x, hx⟩ := List.exists_mem_of_ne_nil _ ho
  have hmem : x ∈ ps.flatMap fun p => boxFibre i.axis p o := List.mem_flatMap.mpr ⟨p, hp, hx⟩
  obtain ⟨y, ys, hcons⟩ := List.exists_cons_of_ne_nil (List.ne_nil_of_mem hmem)
  rw [hcons, List.map_cons, Fold.total_eq_foldl]
  rfl

/-- All boxes together combine to the reduction. -/
theorem reduce_fibre_eq [Std.Associative (I.sweep i.opcode i.outType)] [Std.Commutative (I.sweep i.opcode i.outType)]
    (h : Reducible i b c) (hlen : ∀ p ∈ ps, p.1.length = p.2.length)
    (htiles : Box.Tiles (ps.map fun p => (p.1, List.zipWith (· + ·) p.1 p.2))
      (List.replicate i.operand1.shape.length 0) i.operand1.shape) (ho : o ∈ indices i.operand0.shape) :
    I.reduce i.opcode i.outType ((i.fibre o).map fun idx => load I i.constant i.operand1 idx m) =
      (boxTotal I i m ps o).getD (I.neutral i.opcode) := by
  rw [reduce_eq_getD_total, fibre_eq_filter h.shape h.isComplete ho, boxTotal]
  congr 1
  exact Fold.total_perm _ (((perm_boxFibre hlen htiles i.axis o).map _).symm)

/-! ## The two passes on the global arrays -/

/-- The stores of a box into its face of the output. -/
def storeFace (i : BhInstruction) (b : BhBase) (p : List ℕ × List ℕ) (f : List ℕ → V) (m : Mem V) : Mem V :=
  applyStores ((boxIndices (face i.axis p)).map fun o => ((b, i.operand0.offset o), f o)) m

/-- The state after some boxes: the output elements they have elements of hold what these combine to. -/
structure Combined (I : Interp V) (i : BhInstruction) (b : BhBase) (m : Mem V) (ps : List (List ℕ × List ℕ))
    (m' : Mem V) : Prop where
  frame : ∀ l, (∀ o ∈ indices i.operand0.shape, l ≠ (b, i.operand0.offset o)) → m' l = m l
  value : ∀ o ∈ indices i.operand0.shape,
    m' (b, i.operand0.offset o) = (boxTotal I i m ps o).getD (m (b, i.operand0.offset o))

theorem Combined.start : Combined I i b m [] m where
  frame _ _ := rfl
  value _ _ := rfl

/-- The input is not changed. -/
theorem Combined.boxValue_eq (h : Combined I i b m ps m') (hr : Reducible i b c)
    (hp : FaceBox i.axis i.operand1.shape p) : boxValue I i m' p o = boxValue I i m p o := by
  unfold boxValue
  congr 1
  refine List.map_congr_left fun x hx => ?_
  rw [load_of_base hr.input, load_of_base hr.input]
  apply h.frame
  intro o' ho' heq
  obtain ⟨hbase, hoff⟩ := Prod.mk.inj heq
  refine hr.apart ⟨by rw [hr.output]; rfl, by rw [hr.output, hr.input, hbase], i.operand1.offset x, ?_, ?_⟩
  · rw [hoff, BhView.offsets_eq_map]
    exact List.mem_map_of_mem ho'
  · rw [BhView.offsets_eq_map]
    exact List.mem_map_of_mem (hp.inside x (mem_boxFibre.mp hx).1)

/-- One more box. -/
theorem Combined.storeFace (h : Combined I i b m ps m') (hr : Reducible i b c)
    [Std.Associative (I.sweep i.opcode i.outType)] (hp : FaceBox i.axis i.operand1.shape p) {f : List ℕ → V}
    (hf : ∀ o ∈ indices i.operand0.shape, boxFibre i.axis p o ≠ [] → some (f o) = boxTotal I i m (ps ++ [p]) o) :
    Combined I i b m (ps ++ [p]) (storeFace i b p f m') := by
  have hmem : ∀ o ∈ boxIndices (face i.axis p), o ∈ indices i.operand0.shape := by
    intro o ho
    rw [hr.shape]
    exact hp.mem_reduceShape ho
  refine ⟨fun l hl => ?_, fun o ho => ?_⟩
  · rw [Cluster.storeFace, applyStores_of_notMem, h.frame l hl]
    intro q hq heq
    obtain ⟨o, ho, rfl⟩ := List.mem_map.mp hq
    exact hl o (hmem o ho) heq.symm
  · by_cases hface : o ∈ boxIndices (face i.axis p)
    · have hval := hf o ho (hp.mem_face_iff.mp hface)
      rw [← hval, Option.getD_some, Cluster.storeFace, applyStores_map]
      -- the only index of the face at this offset
      obtain ⟨o', ho'⟩ : ∃ o', (boxIndices (face i.axis p)).reverse.find?
          (fun idx => i.operand0.offset idx == i.operand0.offset o) = some o' := by
        rw [← Option.isSome_iff_exists, List.find?_isSome]
        exact ⟨o, by simpa using hface, by simp⟩
      have hmem' : o' ∈ boxIndices (face i.axis p) := by simpa using List.mem_of_find?_eq_some ho'
      have hoff : i.operand0.offset o' = i.operand0.offset o := by simpa using List.find?_some ho'
      rw [ho', hr.injective.offset_inj (hmem o' hmem') ho hoff]
      rfl
    · have hnil : boxFibre i.axis p o = [] := by
        by_contra hne
        exact hface (hp.mem_face_iff.mpr hne)
      rw [boxTotal_append, boxTotal_eq_none (show ∀ q ∈ [p], boxFibre i.axis q o = [] by simpa using hnil), Option.merge_none_right,
        Cluster.storeFace, applyStores_of_notMem, h.value o ho]
      intro q hq heq
      obtain ⟨o', ho', rfl⟩ := List.mem_map.mp hq
      have hoff := (Prod.mk.inj heq).2
      rw [hr.injective.offset_inj (hmem o' ho') ho hoff] at ho'
      exact hface ho'

/-- A box that sets its output elements, which no box before it has elements of. -/
theorem Combined.init (h : Combined I i b m ps m') (hr : Reducible i b c)
    [Std.Associative (I.sweep i.opcode i.outType)] (hp : FaceBox i.axis i.operand1.shape p)
    (hnew : ∀ o, boxFibre i.axis p o ≠ [] → ∀ q ∈ ps, boxFibre i.axis q o = []) :
    Combined I i b m (ps ++ [p]) (Cluster.storeFace i b p (boxValue I i m' p) m') := by
  refine h.storeFace hr hp fun o _ hpo => ?_
  rw [boxTotal_append, boxTotal_eq_none (hnew o hpo), boxTotal_singleton hpo, h.boxValue_eq hr hp]
  rfl

/-- A box that is combined with its output elements, which are all set. -/
theorem Combined.combine (h : Combined I i b m ps m') (hr : Reducible i b c)
    [Std.Associative (I.sweep i.opcode i.outType)] (hp : FaceBox i.axis i.operand1.shape p)
    (hset : ∀ o, boxFibre i.axis p o ≠ [] → ∃ q ∈ ps, boxFibre i.axis q o ≠ []) :
    Combined I i b m (ps ++ [p]) (Cluster.storeFace i b p (fun o =>
      I.sweep i.opcode i.outType (m' (b, i.operand0.offset o)) (boxValue I i m' p o)) m') := by
  refine h.storeFace hr hp fun o ho hpo => ?_
  obtain ⟨q, hq, hqo⟩ := hset o hpo
  obtain ⟨x, hx⟩ := Option.isSome_iff_exists.mp (boxTotal_isSome (I := I) (m := m) hq hqo)
  rw [boxTotal_append, hx, boxTotal_singleton hpo, h.value o ho, hx, h.boxValue_eq hr hp]
  rfl

/-- A box of the first pass. -/
def initFace (I : Interp V) (i : BhInstruction) (b : BhBase) (p : List ℕ × List ℕ) (m : Mem V) : Mem V :=
  storeFace i b p (boxValue I i m p) m

/-- A box of the second pass. -/
def combineFace (I : Interp V) (i : BhInstruction) (b : BhBase) (p : List ℕ × List ℕ) (m : Mem V) : Mem V :=
  storeFace i b p (fun o => I.sweep i.opcode i.outType (m (b, i.operand0.offset o)) (boxValue I i m p o)) m

theorem Combined.foldl_initFace (hr : Reducible i b c) [Std.Associative (I.sweep i.opcode i.outType)]
    {qs : List (List ℕ × List ℕ)} (hq : ∀ q ∈ qs, FaceBox i.axis i.operand1.shape q)
    (hpair : qs.Pairwise fun p q => ∀ o, boxFibre i.axis p o ≠ [] → boxFibre i.axis q o = [])
    (h : Combined I i b m ps m') (hnew : ∀ q ∈ qs, ∀ o, boxFibre i.axis q o ≠ [] → ∀ p ∈ ps, boxFibre i.axis p o = []) :
    Combined I i b m (ps ++ qs) (qs.foldl (fun m p => initFace I i b p m) m') := by
  induction qs generalizing ps m' with
  | nil => simpa using h
  | cons q qs ih =>
    rw [List.forall_mem_cons] at hq hnew
    rw [List.pairwise_cons] at hpair
    have hstep := ih hq.2 hpair.2 (h.init hr hq.1 hnew.1) (by
      intro q' hq' o ho p hp
      rcases List.mem_append.mp hp with hp | hp
      · exact hnew.2 q' hq' o ho p hp
      · rw [List.mem_singleton.mp hp]
        by_contra hne
        exact ho (hpair.1 q' hq' o hne))
    rwa [List.append_assoc] at hstep

theorem Combined.foldl_combineFace (hr : Reducible i b c) [Std.Associative (I.sweep i.opcode i.outType)]
    {qs : List (List ℕ × List ℕ)} (hq : ∀ q ∈ qs, FaceBox i.axis i.operand1.shape q) (h : Combined I i b m ps m')
    (hset : ∀ q ∈ qs, ∀ o, boxFibre i.axis q o ≠ [] → ∃ p ∈ ps, boxFibre i.axis p o ≠ []) :
    Combined I i b m (ps ++ qs) (qs.foldl (fun m p => combineFace I i b p m) m') := by
  induction qs generalizing ps m' with
  | nil => simpa using h
  | cons q qs ih =>
    rw [List.forall_mem_cons] at hq hset
    have hstep := ih hq.2 (h.combine hr hq.1 hset.1) (by
      intro q' hq' o ho
      obtain ⟨p, hp, hpo⟩ := hset.2 q' hq' o ho
      exact ⟨p, List.mem_append_left [q] hp, hpo⟩)
    rwa [List.append_assoc] at hstep

theorem runWhole_reduction (hk : i.kind = .reduction) (m : Mem V) :
    runWhole I i m = applyStores (storesTo i.operand0 fun o =>
      I.reduce i.opcode i.outType ((i.fibre o).map fun idx => load I i.constant i.operand1 idx m)) m := by
  simp only [runWhole, wholeStores, hk]

/-- When all boxes are done the output holds the reduction. -/
theorem Combined.eq_runWhole (h : Combined I i b m ps m') (hr : Reducible i b c) (hk : i.kind = .reduction)
    [Std.Associative (I.sweep i.opcode i.outType)] [Std.Commutative (I.sweep i.opcode i.outType)]
    {boxes : List (List ℕ × List ℕ)} (hperm : ps.Perm boxes) (hlen : ∀ p ∈ boxes, p.1.length = p.2.length)
    (htiles : Box.Tiles (boxes.map fun p => (p.1, List.zipWith (· + ·) p.1 p.2))
      (List.replicate i.operand1.shape.length 0) i.operand1.shape) : m' = runWhole I i m := by
  funext l
  rw [runWhole_reduction hk]
  by_cases hl : ∃ o ∈ indices i.operand0.shape, l = (b, i.operand0.offset o)
  · obtain ⟨o, ho, rfl⟩ := hl
    have htotal : boxTotal I i m ps o = boxTotal I i m boxes o :=
      Fold.total_perm _ ((hperm.flatMap_right _).map _)
    have hsome : (boxTotal I i m boxes o).isSome := by
      obtain ⟨x, hx, hred⟩ := exists_reduceIndex hr.axis
        (Nat.one_le_iff_ne_zero.mp (hr.positive _ (getD_mem hr.axis))) (hr.shape ▸ ho)
      obtain ⟨p, hp, hxp⟩ := List.mem_flatMap.mp ((mem_flatMap_boxIndices hlen htiles).mpr hx)
      exact boxTotal_isSome hp (List.ne_nil_of_mem (mem_boxFibre.mpr ⟨hxp, hred⟩))
    obtain ⟨x, hx⟩ := Option.isSome_iff_exists.mp hsome
    rw [h.value o ho, htotal, applyStores_storesTo hr.output, hr.injective.lastAt_offset ho, Option.map_some,
      reduce_fibre_eq hr hlen htiles ho, hx]
    rfl
  · push Not at hl
    rw [h.frame l hl]
    symm
    apply applyStores_of_notMem
    intro q hq heq
    simp only [storesTo, hr.output, List.mem_map] at hq
    obtain ⟨o, ho, rfl⟩ := hq
    exact hl o ho heq.symm

/-- The two passes compute the reduction. -/
theorem foldl_passes_eq_runWhole (hr : Reducible i b c) (hk : i.kind = .reduction)
    [Std.Associative (I.sweep i.opcode i.outType)] [Std.Commutative (I.sweep i.opcode i.outType)]
    {boxes : List (List ℕ × List ℕ)} (hbox : ∀ p ∈ boxes, FaceBox i.axis i.operand1.shape p)
    (hndim : i.operand1.shape.length ≠ 1)
    (htiles : Box.Tiles (boxes.map fun p => (p.1, List.zipWith (· + ·) p.1 p.2))
      (List.replicate i.operand1.shape.length 0) i.operand1.shape) (m : Mem V) :
    (boxes.filter fun p => !(p.1.getD i.axis 0 == 0)).foldl (fun m p => combineFace I i b p m)
        ((boxes.filter fun p => p.1.getD i.axis 0 == 0).foldl (fun m p => initFace I i b p m) m) =
      runWhole I i m := by
  have hfirst : Combined I i b m ([] ++ boxes.filter fun p => p.1.getD i.axis 0 == 0) _ :=
    Combined.start.foldl_initFace hr (fun q hq => hbox q (List.mem_of_mem_filter hq)) (pairwise_first hbox htiles)
      (by simp)
  rw [List.nil_append] at hfirst
  have hall := hfirst.foldl_combineFace hr
    (fun (q : List ℕ × List ℕ) (hq : q ∈ boxes.filter fun p => !(p.1.getD i.axis 0 == 0)) =>
      hbox q (List.mem_of_mem_filter hq)) (by
      intro q hq o ho
      have hmem := (hbox q (List.mem_of_mem_filter hq)).mem_reduceShape
        ((hbox q (List.mem_of_mem_filter hq)).mem_face_iff.mpr ho)
      obtain ⟨p, hp, hrow, hpo⟩ := exists_first hbox htiles hr.axis hndim hr.positive hmem
      exact ⟨p, List.mem_filter.mpr ⟨hp, by simpa using hrow⟩, hpo⟩)
  exact hall.eq_runWhole hr hk (List.filter_append_perm _ boxes) (fun p hp => (hbox p hp).length_eq) htiles

end Global

end Bohrium.Cluster
