import Bohrium.Cluster.Faces
import Bohrium.Filter.BcexpSound

/-! # The events of a face

The tasks that the processes schedule for one box of a reduction, seen together: the reduction where
the input lies, the transfer of the result, and what the process with the output makes of it. All
processes release the temporary arrays, whether they used them or not. -/
namespace Bohrium.Cluster
open Strided Network
set_option autoImplicit false

/-! ## The broadcasted output -/

section Bcast
variable {axis : ℕ} {out input : BhView} {x : List ℕ}

theorem zipWith_stride (shape : List ℕ) (ds : List Dim) :
    List.zipWith (fun n d => (⟨n, d.stride⟩ : Dim)) shape ds = List.zipWith Dim.mk shape (ds.map Dim.stride) := by
  rw [List.zipWith_map_right]

theorem eraseIdx_zipWith_mk (ns : List ℕ) (ss : List ℤ) (axis : ℕ) :
    (List.zipWith Dim.mk ns ss).eraseIdx axis = List.zipWith Dim.mk (ns.eraseIdx axis) (ss.eraseIdx axis) := by
  induction ns generalizing ss axis with
  | nil => simp
  | cons n ns ih =>
    cases ss with
    | nil => simp
    | cons s ss =>
      cases axis with
      | zero => rfl
      | succ axis => simp [ih]

theorem map_stride_zipWith {ns : List ℕ} {ss : List ℤ} (h : ss.length ≤ ns.length) :
    (List.zipWith Dim.mk ns ss).map Dim.stride = ss := by
  induction ns generalizing ss with
  | nil =>
    rw [List.eq_nil_of_length_eq_zero (Nat.le_zero.mp h)]
    rfl
  | cons n ns ih =>
    cases ss with
    | nil => rfl
    | cons s ss => simp [ih (by simpa using h)]

theorem map_shape_zipWith_mk {ns : List ℕ} {ss : List ℤ} (h : ns.length ≤ ss.length) :
    (List.zipWith Dim.mk ns ss).map Dim.shape = ns := by
  induction ns generalizing ss with
  | nil => rfl
  | cons n ns ih =>
    cases ss with
    | nil => cases h
    | cons s ss => simp [ih (by simpa using h)]

theorem dot_eq_of_stride {ds es : List Dim} (h : ds.map Dim.stride = es.map Dim.stride) (x : List ℕ) :
    dot ds x = dot es x := by
  induction ds generalizing es x with
  | nil =>
    cases es with
    | nil => rfl
    | cons e es => cases h
  | cons d ds ih =>
    cases es with
    | nil => cases h
    | cons e es =>
      rw [List.map_cons, List.map_cons, List.cons.injEq] at h
      cases x with
      | nil => rfl
      | cons a x => rw [dot, dot, h.1, ih h.2]

/-- A dimension with a zero stride does not move the offset. -/
theorem dot_eraseIdx {ds : List Dim} (haxis : axis < ds.length) (hzero : (ds.map Dim.stride)[axis]? = some 0)
    (hlen : x.length = ds.length) : dot ds x = dot (ds.eraseIdx axis) (x.eraseIdx axis) := by
  induction axis generalizing ds x with
  | zero =>
    cases ds with
    | nil => cases haxis
    | cons d ds =>
      cases x with
      | nil => cases hlen
      | cons a x =>
        have hd : d.stride = 0 := by simpa using hzero
        simp [dot, hd]
  | succ axis ih =>
    cases ds with
    | nil => cases haxis
    | cons d ds =>
      cases x with
      | nil => cases hlen
      | cons a x =>
        simp only [dot, List.eraseIdx_cons_succ]
        rw [ih (by simpa using haxis) (by simpa using hzero) (by simpa using hlen)]

section Fits
variable (haxis : axis < input.shape.length) (hlen : out.dims.length + 1 = input.shape.length)
include haxis hlen

theorem strides_bcastOutput :
    (bcastOutput axis out input).dims.map Dim.stride = (out.dims.map Dim.stride).insertIdx axis 0 := by
  apply map_stride_zipWith
  rw [List.length_insertIdx_of_le_length (by simp; omega), List.length_map, hlen]

theorem shape_bcastOutput : (bcastOutput axis out input).shape = input.shape := by
  apply map_shape_zipWith_mk
  rw [List.length_insertIdx_of_le_length (by simp; omega), List.length_map, hlen]

theorem offset_bcastOutput (hx : x.length = input.shape.length) :
    (bcastOutput axis out input).offset x = out.offset (x.eraseIdx axis) := by
  have hdims : (bcastOutput axis out input).dims.length = input.shape.length := by
    rw [← @shape_bcastOutput axis out input haxis hlen, BhView.shape, List.length_map]
  rw [BhView.offset, BhView.offset, dot_eraseIdx (by rw [hdims]; exact haxis) _ (hx.trans hdims.symm)]
  · congr 1
    apply dot_eq_of_stride
    rw [← List.eraseIdx_map, strides_bcastOutput haxis hlen, List.eraseIdx_insertIdx_self]
  · rw [strides_bcastOutput haxis hlen, List.getElem?_insertIdx_self]
    rw [if_pos (by simp; omega)]

/-- The output chunk without the broadcasted dimension. -/
theorem eraseIdx_chunkDims (shape : List ℕ) :
    (List.zipWith (fun n d => (⟨n, d.stride⟩ : Dim)) shape (bcastOutput axis out input).dims).eraseIdx axis =
      List.zipWith (fun n d => (⟨n, d.stride⟩ : Dim)) (shape.eraseIdx axis) out.dims := by
  rw [zipWith_stride, eraseIdx_zipWith_mk, strides_bcastOutput haxis hlen, List.eraseIdx_insertIdx_self,
    zipWith_stride]

end Fits

end Bcast

section Mapping
variable {worldsize : ℕ} {i : BhInstruction} {b c : BhBase} {p : List ℕ × List ℕ} {o : List ℕ}

theorem Reducible.length_dims (h : Reducible i b c) (hndim : i.operand1.shape.length ≠ 1) :
    i.operand0.dims.length + 1 = i.operand1.shape.length := by
  have hlen : i.operand0.dims.length = (reduceShape i.axis i.operand1.shape).length := by
    rw [← h.shape, BhView.shape, List.length_map]
  have haxis := h.axis
  rw [reduceShape, if_neg hndim, List.length_eraseIdx_of_lt haxis] at hlen
  omega

/-- What `mapping_chunks` is called with. -/
theorem Reducible.mappable (h : Reducible i b c) (hndim : i.operand1.shape.length ≠ 1) :
    Mappable [bcastOutput i.axis i.operand0 i.operand1, i.operand1] (bcastOutput i.axis i.operand0 i.operand1) where
  head := rfl
  array := by
    show i.operand0.base.isSome
    rw [h.output]
    rfl
  ndim := by
    intro hnil
    have hshape := shape_bcastOutput h.axis (h.length_dims hndim)
    rw [BhView.shape, hnil, List.map_nil] at hshape
    have haxis := h.axis
    rw [← hshape] at haxis
    cases haxis
  positive := by
    rw [shape_bcastOutput h.axis (h.length_dims hndim)]
    exact h.positive
  shape := by
    rw [shape_bcastOutput h.axis (h.length_dims hndim)]
    intro v hv _
    rcases List.mem_cons.mp hv with rfl | hv
    · exact shape_bcastOutput h.axis (h.length_dims hndim)
    · rw [List.mem_singleton.mp hv]
  stride := by
    intro v hv _ d hd
    rcases List.mem_cons.mp hv with rfl | hv
    · have hmem := List.mem_map_of_mem (f := Dim.stride) hd
      rw [strides_bcastOutput h.axis (h.length_dims hndim)] at hmem
      rcases List.eq_or_mem_of_mem_insertIdx hmem with heq | hmem
      · omega
      · obtain ⟨e, he, heq⟩ := List.mem_map.mp hmem
        rw [← heq]
        exact h.outStride (by simpa [BhView.ndim, BhView.shape] using hndim) e he
    · rw [List.mem_singleton.mp hv] at hd
      exact h.stride d hd
  inBase := by
    intro v hv _
    rcases List.mem_cons.mp hv with rfl | hv
    · refine ⟨b, h.output, fun x hx => ?_⟩
      rw [BhView.offsets_eq_map, shape_bcastOutput h.axis (h.length_dims hndim)] at hx
      obtain ⟨idx, hidx, rfl⟩ := List.mem_map.mp hx
      have hlen := (mem_indices.mp hidx).length_eq
      rw [offset_bcastOutput h.axis (h.length_dims hndim) hlen]
      have hmem := @reduceIndex_mem i.axis _ _ hidx
      rw [← h.shape, reduceIndex_of_length (by rw [hlen]; exact hndim)] at hmem
      exact offset_bounds h.outInBase h.output (mem_indices.mp hmem)
    · rw [List.mem_singleton.mp hv]
      exact h.inBase

/-- The face of a box lies on the process that the box's output chunk lies on. -/
theorem Reducible.onRank_face (h : Reducible i b c) (hp : FaceBox i.axis i.operand1.shape p)
    (hrank : OnRank worldsize p.1 p.2 (bcastOutput i.axis i.operand0 i.operand1) b) :
    rankAt worldsize p.1 (bcastOutput i.axis i.operand0 i.operand1) b < worldsize ∧
      ∀ idx ∈ indices (p.2.eraseIdx i.axis),
        (0 ≤ startAt worldsize p.1 (bcastOutput i.axis i.operand0 i.operand1) b + dot i.operand0.dims idx ∧
          startAt worldsize p.1 (bcastOutput i.axis i.operand0 i.operand1) b + dot i.operand0.dims idx <
            arrayLocalNelem worldsize (rankAt worldsize p.1 (bcastOutput i.axis i.operand0 i.operand1) b) b) ∧
        startAt worldsize p.1 (bcastOutput i.axis i.operand0 i.operand1) b + dot i.operand0.dims idx =
          i.operand0.offset (List.zipWith (· + ·) (p.1.eraseIdx i.axis) idx) -
            rankAt worldsize p.1 (bcastOutput i.axis i.operand0 i.operand1) b * ↑(b.nelem / worldsize) := by
  obtain ⟨rank, start, hloc, hlt, hinside⟩ := hrank
  have hfit := h.length_dims hp.ndim
  rw [rankAt, startAt, hloc]
  refine ⟨hlt, fun idx hidx => ?_⟩
  -- the element of the box at the box's beginning along the axis
  have haxis : i.axis < p.2.length := hp.lengths ▸ h.axis
  have hx := insertIdx_mem_indices haxis hp.one_le_getD hidx
  have hxlen : (idx.insertIdx i.axis 0).length = i.operand1.shape.length :=
    (mem_indices.mp hx).length_eq.trans hp.lengths
  have hsum : (List.zipWith (· + ·) p.1 (idx.insertIdx i.axis 0)).eraseIdx i.axis =
      List.zipWith (· + ·) (p.1.eraseIdx i.axis) idx := by
    rw [Box.eraseIdx_zipWith_add, List.eraseIdx_insertIdx_self]
  have hdot : dot (bcastOutput i.axis i.operand0 i.operand1).dims (idx.insertIdx i.axis 0) =
      dot i.operand0.dims idx := by
    have hoff := offset_bcastOutput h.axis hfit hxlen
    rw [List.eraseIdx_insertIdx_self, BhView.offset, BhView.offset] at hoff
    exact add_left_cancel hoff
  obtain ⟨hbounds, heq⟩ := hinside _ hx
  rw [hdot, offset_bcastOutput h.axis hfit (by rw [List.length_zipWith, hp.corner, hxlen, Nat.min_self]), hsum] at heq
  rw [hdot] at hbounds
  exact ⟨hbounds, heq⟩

end Mapping

/-! ## Contiguous arrays -/

/-- A contiguous view of an array from its beginning on. -/
def wholeView (b : BhBase) (shape : List ℕ) : BhView := ⟨some b, 0, contiguous (shape.map fun n => ⟨n, 0⟩)⟩

section Whole
variable {b : BhBase} {shape o : List ℕ}

theorem map_shape_plain (shape : List ℕ) : (shape.map fun n => (⟨n, 0⟩ : Dim)).map Dim.shape = shape := by
  rw [List.map_map]
  exact List.map_id shape

theorem contiguous_map_shape (ds : List Dim) :
    contiguous ds = contiguous ((ds.map Dim.shape).map fun n => ⟨n, 0⟩) := by
  induction ds with
  | nil => rfl
  | cons d ds ih => rw [List.map_cons, List.map_cons, contiguous, contiguous, map_shape_plain, ← ih]

theorem shape_wholeView : (wholeView b shape).shape = shape := by
  rw [BhView.shape, wholeView, shape_contiguous, map_shape_plain]

theorem offset_wholeView : (wholeView b shape).offset o = flatIndex shape o := by
  rw [BhView.offset, wholeView, dot_contiguous, map_shape_plain, zero_add]

theorem injective_wholeView : (wholeView b shape).Injective :=
  BhView.Contiguous.injective ⟨rfl, _, rfl⟩

theorem flatIndex_lt (ho : o ∈ indices shape) : flatIndex shape o < shape.prod := by
  have hget := getElem?_flatIndex ho
  obtain ⟨hlt, _⟩ := List.getElem?_eq_some_iff.mp hget
  rwa [length_indices] at hlt

theorem prod_pos (h1 : ∀ n ∈ shape, 1 ≤ n) : 0 < shape.prod := by
  induction shape with
  | nil => exact Nat.one_pos
  | cons n shape ih =>
    rw [List.forall_mem_cons] at h1
    rw [List.prod_cons]
    exact Nat.mul_pos h1.1 (ih h1.2)

theorem nbcast_contiguous (h1 : ∀ n ∈ shape, 1 ≤ n) :
    (((contiguous (shape.map fun n => ⟨n, 0⟩)).filter fun d => 0 < d.stride).map Dim.shape).prod = shape.prod := by
  induction shape with
  | nil => rfl
  | cons n shape ih =>
    rw [List.forall_mem_cons] at h1
    have hpos := prod_pos h1.2
    rw [List.map_cons, contiguous, map_shape_plain, List.filter_cons_of_pos, List.map_cons, List.prod_cons,
      List.prod_cons, ih h1.2]
    exact decide_eq_true (Int.natCast_pos.mpr hpos)

theorem nbcast_wholeView (h1 : ∀ n ∈ shape, 1 ≤ n) : bhNelementsNbcast (wholeView b shape) = shape.prod :=
  nbcast_contiguous h1

/-- A contiguous array is packed already. -/
theorem sendDims_wholeView (h1 : ∀ n ∈ shape, 1 ≤ n) :
    sendDims (contiguous (shape.map fun n => ⟨n, 0⟩)) = contiguous (shape.map fun n => ⟨n, 0⟩) := by
  induction shape with
  | nil => rfl
  | cons n shape ih =>
    rw [List.forall_mem_cons] at h1
    have hpos := prod_pos h1.2
    rw [List.map_cons, contiguous, map_shape_plain, sendDims, ih h1.2, nbcast_contiguous h1.2, if_pos]
    exact Int.natCast_pos.mpr hpos

/-- What the sender of a contiguous array schedules. -/
theorem commArrayData_wholeView {st : Stores} {v w : ℕ} {lo : List ℕ} (hne : v ≠ w) (h1 : ∀ n ∈ shape, 1 ≤ n) :
    commArrayData st v (lo, 2) ⟨v, wholeView b shape, lo, false⟩ w =
      [.inst ⟨.identity, wholeView ⟨st.ofBuffer lo 2, b.type, shape.prod⟩ shape, wholeView b shape, noView, .int .int64 0⟩,
        .send (lo, 2) w (wholeView ⟨st.ofBuffer lo 2, b.type, shape.prod⟩ shape)] ++
        release ⟨st.ofBuffer lo 2, b.type, shape.prod⟩ := by
  have hdims : sendDims (wholeView b shape).dims = contiguous (shape.map fun n => ⟨n, 0⟩) := sendDims_wholeView h1
  rw [commArrayData, if_neg hne, if_neg hne, if_pos rfl]
  simp only [nbcast_wholeView h1, hdims]
  rfl

end Whole

/-! ## Events -/

section Events
variable {V : Type} (I : Interp V) (st : Stores) (worldsize : ℕ) (i : BhInstruction) (b c : BhBase)

/-- The temporary array of a box. -/
def tmpBase (p : List ℕ × List ℕ) : BhBase := ⟨st.ofChunk p.1 2, b.type, (p.2.eraseIdx i.axis).prod⟩

/-- The buffer in which the result of a box is sent. -/
def bufferBase (p : List ℕ × List ℕ) : BhBase := ⟨st.ofBuffer p.1 2, b.type, (p.2.eraseIdx i.axis).prod⟩

/-- The process that holds the output of a box. -/
def outRank (p : List ℕ × List ℕ) : ℕ := rankAt worldsize p.1 (bcastOutput i.axis i.operand0 i.operand1) b

/-- The process that holds the input of a box. -/
def inRank (p : List ℕ × List ℕ) : ℕ := rankAt worldsize p.1 i.operand1 c

/-- The face of a box in the output's local array. -/
def outView (p : List ℕ × List ℕ) : BhView :=
  localView st worldsize (outRank worldsize i b p)
    (startAt worldsize p.1 (bcastOutput i.axis i.operand0 i.operand1) b) (p.2.eraseIdx i.axis) i.operand0 b

/-- A box in the input's local array. -/
def inView (p : List ℕ × List ℕ) : BhView :=
  localView st worldsize (inRank worldsize i c p) (startAt worldsize p.1 i.operand1 c) p.2 i.operand1 c

/-- The temporary array on a process that does not hold the output. -/
def outTmpBase (p : List ℕ × List ℕ) : BhBase :=
  ⟨st.ofChunk p.1 0, b.type, packedNelem p.2 (bcastOutput i.axis i.operand0 i.operand1).dims⟩

def tmpView (p : List ℕ × List ℕ) : BhView := wholeView (tmpBase st i b p) (p.2.eraseIdx i.axis)

def bufferView (p : List ℕ × List ℕ) : BhView := wholeView (bufferBase st i b p) (p.2.eraseIdx i.axis)

def releaseAt (r : ℕ) (b : BhBase) : List (Event ℕ (Node V) (Message V)) :=
  [.act r (execInst I (onBaseInst .free b)), .act r (execInst I (onBaseInst .discard b))]

/-- The events that bring the result of a box to the output's process. -/
def shipEvents (p : List ℕ × List ℕ) : List (Event ℕ (Node V) (Message V)) :=
  if inRank worldsize i c p = outRank worldsize i b p then []
  else
    [.act (inRank worldsize i c p) (execInst I ⟨.identity, bufferView st i b p, tmpView st i b p, noView, .int .int64 0⟩),
      .comm (inRank worldsize i c p) (outRank worldsize i b p) (sendView (p.1, 2) (bufferView st i b p))
        (recvView (p.1, 2) (tmpView st i b p))] ++
      releaseAt I (inRank worldsize i c p) (bufferBase st i b p)

/-- Every process releases its temporary arrays. -/
def cleanupEvents (p : List ℕ × List ℕ) : List (Event ℕ (Node V) (Message V)) :=
  (List.range worldsize).flatMap fun r => releaseAt I r (tmpBase st i b p) ++
    if r = outRank worldsize i b p then [] else releaseAt I r (outTmpBase st i b p)

/-- The events of a box. -/
def faceEvents (finish : BhView → BhView → BhInstruction) (p : List ℕ × List ℕ) :
    List (Event ℕ (Node V) (Message V)) :=
  .act (inRank worldsize i c p)
      (execInst I (reduceChunk i.opcode i.axis (tmpView st i b p) (inView st worldsize i c p))) ::
    (shipEvents I st worldsize i b c p ++
      .act (outRank worldsize i b p)
          (execInst I (finish (outView st worldsize i b p) (tmpView st i b p))) ::
        cleanupEvents I st worldsize i b p)

end Events

/-! ## The part of a process -/

section Project
variable {V : Type} {I : Interp V} {st : Stores} {worldsize : ℕ} {i : BhInstruction} {b c : BhBase}
  {finish : BhView → BhView → BhInstruction} {p : List ℕ × List ℕ}

theorem shape_dropAxis (axis : ℕ) (v : BhView) : (dropAxis axis v).shape = v.shape.eraseIdx axis :=
  (List.eraseIdx_map ..).symm

theorem faceTmp_eq {lo shape : List ℕ} {v : BhView} {e : BhBase} (hb : v.base = some e) (hshape : v.shape = shape) :
    faceTmp st lo v = some (wholeView ⟨st.ofChunk lo 2, e.type, shape.prod⟩ shape) := by
  rw [faceTmp, hb, Option.map_some, bhNelements, hshape, contiguous_map_shape]
  rw [BhView.shape] at hshape
  rw [hshape]
  rfl

/-- What a process schedules for a box. -/
theorem faceTasks_eq (h : Reducible i b c) (hp : FaceBox i.axis i.operand1.shape p) (r : ℕ) :
    faceTasks st r i finish
        (chunksAt st ⟨worldsize, r⟩ [bcastOutput i.axis i.operand0 i.operand1, i.operand1] p.1 p.2) =
      (if r = inRank worldsize i c p then
        [.inst (reduceChunk i.opcode i.axis (tmpView st i b p) (inView st worldsize i c p))] else []) ++
      commArrayData st r (p.1, 2) ⟨inRank worldsize i c p, tmpView st i b p, p.1, false⟩ (outRank worldsize i b p) ++
      (if r = outRank worldsize i b p then [.inst (finish (outView st worldsize i b p) (tmpView st i b p))] else []) ++
      release (tmpBase st i b p) ++
      (if r = outRank worldsize i b p then [] else release (outTmpBase st i b p)) := by
  have hfit := h.length_dims hp.ndim
  have hbase : (bcastOutput i.axis i.operand0 i.operand1).base = some b := h.output
  have hlen : p.2.length = (bcastOutput i.axis i.operand0 i.operand1).dims.length := by
    rw [hp.lengths, ← shape_bcastOutput h.axis hfit, BhView.shape, List.length_map]
  obtain ⟨oc, hoc⟩ : ∃ oc, oc = chunkOf st ⟨worldsize, r⟩ p.1 p.2 0 (bcastOutput i.axis i.operand0 i.operand1) b :=
    ⟨_, rfl⟩
  obtain ⟨ic, hic⟩ : ∃ ic, ic = chunkOf st ⟨worldsize, r⟩ p.1 p.2 1 i.operand1 c := ⟨_, rfl⟩
  have hchunks : chunksAt st ⟨worldsize, r⟩ [bcastOutput i.axis i.operand0 i.operand1, i.operand1] p.1 p.2 =
      [some oc, some ic] := by
    rw [hoc, hic]
    simp [chunksAt, hbase, h.input]
  have hcoord : oc.coord = p.1 := by rw [hoc, coord_chunkOf]
  have horank : oc.rank = outRank worldsize i b p := by rw [hoc, rank_chunkOf]; rfl
  have hirank : ic.rank = inRank worldsize i c p := by rw [hic, rank_chunkOf]; rfl
  have hshape : (dropAxis i.axis oc.ary).shape = p.2.eraseIdx i.axis := by
    rw [shape_dropAxis, hoc, shape_chunkOf hlen]
  -- the output chunk on its process and elsewhere
  have hown : r = outRank worldsize i b p →
      dropAxis i.axis oc.ary = outView st worldsize i b p ∧ oc.temporary = false := by
    intro hr
    rw [hoc, chunkOf_rankAt hr.symm]
    refine ⟨?_, rfl⟩
    rw [dropAxis, localView, eraseIdx_chunkDims h.axis hfit, hr]
    rfl
  have hother : r ≠ outRank worldsize i b p →
      (dropAxis i.axis oc.ary).base = some (outTmpBase st i b p) ∧ oc.temporary = true := by
    intro hr
    rw [hoc, chunkOf_of_ne (Ne.symm hr)]
    exact ⟨rfl, rfl⟩
  have htmp : faceTmp st p.1 (dropAxis i.axis oc.ary) = some (tmpView st i b p) := by
    by_cases hr : r = outRank worldsize i b p
    · have hb : (dropAxis i.axis oc.ary).base = some (arrayGetLocal st ⟨worldsize, outRank worldsize i b p⟩ b) := by
        rw [(hown hr).1]
        rfl
      rw [faceTmp_eq hb hshape]
      rfl
    · rw [faceTmp_eq (hother hr).1 hshape]
      rfl
  have hin : r = inRank worldsize i c p → ic.ary = inView st worldsize i c p ∧ ic.temporary = false := by
    intro hr
    rw [hic, chunkOf_rankAt hr.symm, hr]
    exact ⟨rfl, rfl⟩
  rw [hchunks]
  simp only [faceTasks, hcoord, htmp, horank, hirank]
  congr 1
  · congr 1
    · congr 1
      · congr 1
        by_cases hr : r = inRank worldsize i c p
        · rw [if_pos hr, if_pos hr, (hin hr).1, releaseChunk, (hin hr).2]
          rfl
        · rw [if_neg hr, if_neg hr]
      · by_cases hr : r = outRank worldsize i b p
        · rw [if_pos hr, if_pos hr, (hown hr).1]
        · rw [if_neg hr, if_neg hr]
  · by_cases hr : r = outRank worldsize i b p
    · rw [if_pos hr, releaseChunk, (hown hr).2]
      rfl
    · rw [if_neg hr, releaseChunk, (hother hr).2, (hother hr).1]
      simp

theorem project_range {S M : Type} {f : ℕ → List (Event ℕ S M)}
    (hf : ∀ r r', r ≠ r' → (f r).flatMap (Event.project r') = []) (n r : ℕ) :
    ((List.range n).flatMap f).flatMap (Event.project r) =
      if r < n then (f r).flatMap (Event.project r) else [] := by
  induction n with
  | zero => rfl
  | succ n ih =>
    rw [List.range_succ, List.flatMap_append, List.flatMap_append, List.flatMap_singleton, ih]
    by_cases hr : r = n
    · subst hr
      rw [if_neg (Nat.lt_irrefl r), if_pos (Nat.lt_succ_self r), List.nil_append]
    · rw [hf n r (Ne.symm hr), List.append_nil]
      by_cases hlt : r < n
      · rw [if_pos hlt, if_pos (by omega)]
      · rw [if_neg hlt, if_neg (by omega)]

theorem project_releaseAt (r r' : ℕ) (b : BhBase) :
    (releaseAt I r b).flatMap (Event.project r') = if r = r' then (release b).map (Task.action I) else [] := by
  by_cases hr : r = r'
  · simp [releaseAt, Event.project, hr, map_release]
  · simp [releaseAt, Event.project, hr]

theorem project_cleanupEvents (r : ℕ) :
    (cleanupEvents I st worldsize i b p).flatMap (Event.project r) =
      if r < worldsize then
        (release (tmpBase st i b p) ++
          if r = outRank worldsize i b p then [] else release (outTmpBase st i b p)).map (Task.action I)
      else [] := by
  unfold cleanupEvents
  rw [project_range]
  · congr 1
    rw [List.flatMap_append, project_releaseAt, if_pos rfl, List.map_append]
    congr 1
    split_ifs
    · rfl
    · rw [project_releaseAt, if_pos rfl]
  · intro r r' hne
    rw [List.flatMap_append, project_releaseAt, if_neg hne, List.nil_append]
    split_ifs
    · rfl
    · rw [project_releaseAt, if_neg hne]

theorem map_commArrayData (hp : FaceBox i.axis i.operand1.shape p) (r : ℕ) :
    (commArrayData st r (p.1, 2) ⟨inRank worldsize i c p, tmpView st i b p, p.1, false⟩
        (outRank worldsize i b p)).map (Task.action I) =
      (shipEvents I st worldsize i b c p).flatMap (Event.project r) := by
  have h1 : ∀ n ∈ p.2.eraseIdx i.axis, 1 ≤ n := fun n hn => hp.positive n (List.mem_of_mem_eraseIdx hn)
  unfold shipEvents
  by_cases hsame : inRank worldsize i c p = outRank worldsize i b p
  · rw [if_pos hsame, commArrayData, if_pos hsame]
    rfl
  · rw [if_neg hsame, List.flatMap_append, project_releaseAt]
    by_cases hv : r = inRank worldsize i c p
    · subst hv
      have hcomm : commArrayData st (inRank worldsize i c p) (p.1, 2) ⟨_, tmpView st i b p, _, _⟩ _ = _ :=
        commArrayData_wholeView hsame h1
      rw [hcomm, List.map_append, if_pos rfl]
      congr 1
      simp only [List.flatMap_cons, List.flatMap_nil, Event.project, if_true]
      rfl
    · rw [if_neg (Ne.symm hv), List.append_nil, commArrayData, if_neg hsame]
      by_cases hw : r = outRank worldsize i b p
      · subst hw
        simp [Event.project, Task.action, hsame]
      · simp [Event.project, hv, Ne.symm hv, hw, Ne.symm hw]

/-- The tasks of a process for a box are its part of the box's events. -/
theorem map_faceTasks (h : Reducible i b c) (hp : FaceBox i.axis i.operand1.shape p)
    (hin : inRank worldsize i c p < worldsize) (hout : outRank worldsize i b p < worldsize) (r : ℕ) :
    (if r < worldsize then (faceTasks st r i finish (chunksAt st ⟨worldsize, r⟩
        [bcastOutput i.axis i.operand0 i.operand1, i.operand1] p.1 p.2)).map (Task.action I) else []) =
      (faceEvents I st worldsize i b c finish p).flatMap (Event.project r) := by
  rw [faceEvents, List.flatMap_cons, List.flatMap_append, List.flatMap_cons, project_cleanupEvents,
    ← map_commArrayData hp]
  by_cases hr : r < worldsize
  · rw [if_pos hr, if_pos hr, faceTasks_eq h hp, List.append_assoc, List.append_assoc, List.append_assoc,
      List.map_append, List.map_append, List.map_append, List.map_append]
    have hact : ∀ (q : ℕ) (j : BhInstruction), (if r = q then [Task.inst j] else []).map (Task.action I) =
        (Event.act q (execInst I j)).project r := by
      intro q j
      by_cases hq : r = q
      · rw [if_pos hq, Event.project, if_pos hq.symm]
        rfl
      · rw [if_neg hq, Event.project, if_neg (Ne.symm hq)]
        rfl
    rw [hact, hact]
  · have hnot : ∀ q, q < worldsize → ∀ f, (Event.act q f : Event ℕ (Node V) (Message V)).project r = [] := by
      intro q hq f
      rw [Event.project, if_neg (by omega)]
    rw [if_neg hr, if_neg hr, hnot _ hin, hnot _ hout, commArrayData]
    rw [if_neg (show ¬ r = outRank worldsize i b p by omega), if_neg (show ¬ r = inRank worldsize i c p by omega)]
    split_ifs
    · rfl
    · rfl

theorem proper_faceEvents : ∀ e ∈ faceEvents I st worldsize i b c finish p, e.Proper := by
  have hrelease : ∀ r (a : BhBase), ∀ e ∈ releaseAt I r a, e.Proper := by
    intro r a e he
    simp only [releaseAt, List.mem_cons, List.not_mem_nil, or_false] at he
    rcases he with rfl | rfl
    · trivial
    · trivial
  intro e he
  simp only [faceEvents, List.mem_cons, List.mem_append] at he
  rcases he with rfl | he | rfl | he
  · trivial
  · unfold shipEvents at he
    split_ifs at he with hsame
    · cases he
    · simp only [List.mem_append, List.mem_cons, List.not_mem_nil, or_false] at he
      rcases he with (rfl | rfl) | he
      · trivial
      · exact hsame
      · exact hrelease _ _ e he
  · trivial
  · obtain ⟨r, _, he⟩ := List.mem_flatMap.mp he
    rcases List.mem_append.mp he with he | he
    · exact hrelease _ _ e he
    · split_ifs at he
      · cases he
      · exact hrelease _ _ e he

/-- No array is discarded twice for a box. -/
theorem discards_faceTasks (h : Reducible i b c) (hp : FaceBox i.axis i.operand1.shape p)
    (hop : i.opcode ≠ .discard) (hfinish : ∀ out tmp, (finish out tmp).opcode ≠ .discard) (r : ℕ) :
    Discards (fun a => ∃ k, a = st.ofBuffer p.1 k ∨ a = st.ofChunk p.1 k) (faceTasks st r i finish
      (chunksAt st ⟨worldsize, r⟩ [bcastOutput i.axis i.operand0 i.operand1, i.operand1] p.1 p.2)) := by
  have h1 : ∀ n ∈ p.2.eraseIdx i.axis, 1 ≤ n := fun n hn => hp.positive n (List.mem_of_mem_eraseIdx hn)
  have hinst : ∀ (q : Prop) [Decidable q] (j : BhInstruction), j.opcode ≠ .discard →
      Discards (fun _ => False) (if q then [Task.inst j] else []) := by
    intro q _ j hj
    split_ifs
    · exact Discards.nil.cons_of_not (by simpa [Task.isDiscard] using hj)
    · exact Discards.nil
  have hcomm : Discards (· = st.ofBuffer p.1 2) (commArrayData st r (p.1, 2)
      ⟨inRank worldsize i c p, tmpView st i b p, p.1, false⟩ (outRank worldsize i b p)) := by
    by_cases hsame : inRank worldsize i c p = outRank worldsize i b p
    · rw [commArrayData, if_pos hsame]
      exact Discards.nil
    · by_cases hv : r = inRank worldsize i c p
      · subst hv
        have hsend : commArrayData st (inRank worldsize i c p) (p.1, 2) ⟨_, tmpView st i b p, _, _⟩ _ = _ :=
          commArrayData_wholeView hsame h1
        rw [hsend]
        apply Discards.cons_of_not _ rfl
        apply Discards.cons_of_not _ rfl
        exact Discards.release rfl
      · rw [commArrayData, if_neg hsame, if_neg hv]
        split_ifs
        · exact Discards.nil.cons_of_not rfl
        · exact Discards.nil
  have hout : Discards (· = st.ofChunk p.1 0)
      (if r = outRank worldsize i b p then [] else release (outTmpBase st i b p)) := by
    split_ifs
    · exact Discards.nil
    · exact Discards.release rfl
  have htmp : Discards (· = st.ofChunk p.1 2) (release (tmpBase st i b p)) := Discards.release rfl
  rw [faceTasks_eq h hp]
  have hreduce := hinst (r = inRank worldsize i c p)
    (reduceChunk i.opcode i.axis (tmpView st i b p) (inView st worldsize i c p)) hop
  have hlast := hinst (r = outRank worldsize i b p) _ (hfinish (outView st worldsize i b p) (tmpView st i b p))
  refine ((((hreduce.append hcomm ?_).append hlast ?_).append htmp ?_).append hout ?_).mono ?_
  · exact fun a ha => ha.elim
  · exact fun a _ ha => ha
  · rintro a ((ha | rfl) | ha) ha'
    · exact ha
    · exact st.chunk_ne_buffer _ _ _ _ ha'.symm
    · exact ha
  · rintro a (((ha | rfl) | ha) | rfl) ha'
    · exact ha
    · exact st.chunk_ne_buffer _ _ _ _ ha'.symm
    · exact ha
    · have := (st.chunk_inj _ _ _ _ ha').2
      omega
  · rintro a ((((ha | rfl) | ha) | rfl) | rfl)
    · exact ha.elim
    · exact ⟨2, Or.inl rfl⟩
    · exact ha.elim
    · exact ⟨2, Or.inr rfl⟩
    · exact ⟨0, Or.inr rfl⟩

end Project

end Bohrium.Cluster
