import Bohrium.Cluster.FaceEvents

/-! # Reductions with two passes

What the events of a box do to the distributed arrays is what the box does to the global ones. So all
boxes of the first pass and then those of the second leave the reduction in the output. -/
namespace Bohrium.Cluster
open Strided Network
set_option autoImplicit false

/-! ## The reduction of one chunk -/

section Chunk
variable {V : Type} {I : Interp V}

/-- What `reduce_chunk` leaves in its output. -/
theorem runWhole_reduceChunk {opcode : BhOpcode} {axis : ℕ} {out input : BhView} {a : BhBase}
    (hk : bhKind opcode = .reduction) (ha : out.base = some a) (hinj : out.Injective)
    (hshape : out.shape = reduceShape axis input.shape) (hone : a.nelem = 1 → out.shape.prod = 1) {o : List ℕ}
    (ho : o ∈ indices out.shape) (m : Mem V) :
    runWhole I (reduceChunk opcode axis out input) m (a, out.offset o) =
      I.reduce opcode (some a.type) (((indices input.shape).filter fun idx => reduceIndex axis idx == o).map fun idx =>
        load I (.int .int64 axis) input idx m) := by
  have haxis : (reduceChunk opcode axis out input).axis = axis := Int.toNat_natCast axis
  have hfibre : (reduceChunk opcode axis out input).fibre o =
      (indices input.shape).filter fun idx => reduceIndex axis idx == o := by
    have hfilter := fibre_eq_filter (i := reduceChunk opcode axis out input) (o := o) (by rw [haxis]; exact hshape)
      (by
        intro hc
        apply hone
        simpa [BhInstruction.isComplete, reduceChunk, ha] using hc) ho
    rwa [haxis] at hfilter
  have htype : (reduceChunk opcode axis out input).outType = some a.type := by
    simp [BhInstruction.outType, reduceChunk, ha]
  rw [runWhole_reduction (i := reduceChunk opcode axis out input) hk]
  show applyStores (storesTo out _) m _ = _
  rw [applyStores_storesTo ha, hinj.lastAt_offset ho, Option.map_some, Option.getD_some, hfibre, htype]
  rfl

theorem boxFibre_eq_map {axis : ℕ} {p : List ℕ × List ℕ} {o o' : List ℕ}
    (h : ∀ idx ∈ indices p.2, reduceIndex axis (List.zipWith (· + ·) p.1 idx) = o' ↔ reduceIndex axis idx = o) :
    boxFibre axis p o' = ((indices p.2).filter fun idx => reduceIndex axis idx == o).map (List.zipWith (· + ·) p.1) := by
  rw [boxFibre, boxIndices, List.filter_map]
  congr 1
  refine List.filter_congr fun idx hidx => ?_
  rw [Bool.eq_iff_iff, beq_iff_eq]
  exact (beq_iff_eq).trans (h idx hidx)

variable {st : Stores} {worldsize : ℕ} {i : BhInstruction} {b c : BhBase} {p : List ℕ × List ℕ}

/-- The input's part of a box on its process. -/
theorem load_inView (h : Reducible i b c) {mems : ℕ → Mem V} {m : Mem V} (hs : Scattered st worldsize mems m)
    (hlen : p.2.length = i.operand1.dims.length) (hrank : OnRank worldsize p.1 p.2 i.operand1 c) (k : BhConstant)
    {idx : List ℕ} (hidx : idx ∈ indices p.2) :
    load I k (inView st worldsize i c p) idx (mems (inRank worldsize i c p)) =
      load I i.constant i.operand1 (List.zipWith (· + ·) p.1 idx) m := by
  obtain ⟨rank, start, hloc, hlt, hinside⟩ := hrank
  obtain ⟨hbounds, heq⟩ := hinside idx hidx
  have hrank : inRank worldsize i c p = rank := by rw [inRank, rankAt, hloc]
  have hstart : startAt worldsize p.1 i.operand1 c = start := by rw [startAt, hloc]
  rw [load_of_base h.input, load_of_base rfl, BhView.offset, inView, hrank, hstart, localView,
    dot_zipWith p.2 i.operand1.dims hlen]
  exact hs.element hlt hbounds heq

end Chunk

/-! ## Messages of contiguous arrays -/

section Message
variable {V : Type} {id : ChunkId} {v w : BhView} {a e : BhBase} {s t : Node V}

theorem recvView_sendView (hv : v.base = some a) (hw : w.base = some e) {k : ℕ} (hk : k < bhNelementsNbcast v) :
    (recvView id w (sendView id v s) t).mem (e, w.start + k) = s.mem (a, v.start + k) := by
  apply recvView_of_data hw
  rw [sendView_eq hv, List.getElem?_map, List.getElem?_range hk]
  rfl

theorem matched_recvView (hv : v.base = some a) (hw : w.base = some e) (htype : a.type = e.type)
    (hcount : bhNelementsNbcast v = bhNelementsNbcast w) :
    ∀ x ∈ (recvView id w (sendView id v s) t).receipts, x ∈ t.receipts ∨ x.Matched := by
  intro x hx
  rw [recvView_receipts hw] at hx
  rcases List.mem_append.mp hx with hx | hx
  · exact Or.inl hx
  · rw [List.mem_singleton.mp hx, sendView_eq hv]
    refine Or.inr ⟨rfl, ?_⟩
    rw [viewBytes, viewBytes, hcount, htype]

end Message

/-! ## One box -/

/-- The state before the output is changed: its process has what the box's elements combine to. -/
structure Arrived {V : Type} (I : Interp V) (st : Stores) (worldsize : ℕ) (i : BhInstruction) (b : BhBase) (m : Mem V)
    (p : List ℕ × List ℕ) (s s' : ℕ → Node V) : Prop where
  frame : ∀ r (l : Loc), l.1.addr ≠ st.ofBuffer p.1 2 → l.1.addr ≠ st.ofChunk p.1 2 → (s' r).mem l = (s r).mem l
  data : ∀ o ∈ indices (p.2.eraseIdx i.axis), (s' (outRank worldsize i b p)).mem
      (tmpBase st i b p, (flatIndex (p.2.eraseIdx i.axis) o : ℤ)) =
    boxValue I i m p (List.zipWith (· + ·) (p.1.eraseIdx i.axis) o)
  receipts : ∀ r, ∀ x ∈ (s' r).receipts, x ∈ (s r).receipts ∨ x.Matched

section Box
variable {V : Type} {I : Interp V} {st : Stores} {worldsize : ℕ} {i : BhInstruction} {b c : BhBase}
  {p : List ℕ × List ℕ} {m : Mem V} {s : ℕ → Node V}

/-- The reduction of a box's input. -/
theorem runWhole_face (h : Reducible i b c) (hk : i.kind = .reduction) (hp : FaceBox i.axis i.operand1.shape p)
    (hs : Scattered st worldsize (fun r => (s r).mem) m) (hrank : OnRank worldsize p.1 p.2 i.operand1 c) {o : List ℕ}
    (ho : o ∈ indices (p.2.eraseIdx i.axis)) :
    runWhole I (reduceChunk i.opcode i.axis (tmpView st i b p) (inView st worldsize i c p))
        (s (inRank worldsize i c p)).mem (tmpBase st i b p, (flatIndex (p.2.eraseIdx i.axis) o : ℤ)) =
      boxValue I i m p (List.zipWith (· + ·) (p.1.eraseIdx i.axis) o) := by
  have hlen : p.2.length = i.operand1.dims.length := by rw [hp.lengths, BhView.shape, List.length_map]
  have hinShape : (inView st worldsize i c p).shape = p.2 := map_shape_zipWith p.2 i.operand1.dims hlen
  have htmpShape : (tmpView st i b p).shape = p.2.eraseIdx i.axis := shape_wholeView
  have hreduce : reduceShape i.axis p.2 = p.2.eraseIdx i.axis := if_neg (by rw [hp.lengths]; exact hp.ndim)
  rw [← offset_wholeView (b := tmpBase st i b p)]
  have hrun := @runWhole_reduceChunk V I i.opcode i.axis (tmpView st i b p) (inView st worldsize i c p)
    (tmpBase st i b p) hk rfl injective_wholeView
    (by rw [htmpShape, hinShape, hreduce]) (by rw [htmpShape]; exact id) _ (by rwa [htmpShape])
    (s (inRank worldsize i c p)).mem
  refine hrun.trans ?_
  have htype : i.outType = some (tmpBase st i b p).type := by
    rw [BhInstruction.outType, h.output]
    rfl
  rw [boxValue, htype, hinShape, boxFibre_eq_map (o := o), List.map_map]
  · refine congrArg _ (List.map_congr_left fun idx hidx => ?_)
    exact load_inView h hs hlen hrank _ (List.mem_of_mem_filter hidx)
  · intro idx hidx
    have hidx' : idx.length = p.2.length := (mem_indices.mp hidx).length_eq
    have haxis : i.axis < p.2.length := hp.lengths ▸ hp.axis_lt
    have hsum : (List.zipWith (· + ·) p.1 idx).length ≠ 1 := by
      rw [List.length_zipWith, hidx', hp.corner, hp.lengths, Nat.min_self]
      exact hp.ndim
    have hone : idx.length ≠ 1 := by
      rw [hidx', hp.lengths]
      exact hp.ndim
    rw [reduceIndex_of_length hsum, reduceIndex_of_length hone, Box.eraseIdx_zipWith_add]
    constructor
    · refine zipWith_add_inj ?_ ?_
      · rw [List.length_eraseIdx_of_lt (by rw [hp.length_eq]; exact haxis),
          List.length_eraseIdx_of_lt (by rw [hidx']; exact haxis), hidx', hp.length_eq]
      · rw [List.length_eraseIdx_of_lt (by rw [hp.length_eq]; exact haxis), (mem_indices.mp ho).length_eq,
          List.length_eraseIdx_of_lt haxis, hp.length_eq]
    · intro he
      rw [he]

theorem runWhole_copyTmp (hI : Copies I) {o : List ℕ} (ho : o ∈ indices (p.2.eraseIdx i.axis)) (m : Mem V) :
    runWhole I ⟨.identity, bufferView st i b p, tmpView st i b p, noView, .int .int64 0⟩ m
        (bufferBase st i b p, (flatIndex (p.2.eraseIdx i.axis) o : ℤ)) =
      m (tmpBase st i b p, (flatIndex (p.2.eraseIdx i.axis) o : ℤ)) := by
  have hshape : (bufferView st i b p).shape = p.2.eraseIdx i.axis := shape_wholeView
  have hoff : (bufferView st i b p).offset o = (flatIndex (p.2.eraseIdx i.axis) o : ℤ) := offset_wholeView
  have hinj : (bufferView st i b p).Injective := injective_wholeView
  rw [runWhole_elementwise rfl, ← hoff]
  show applyStores (storesTo (bufferView st i b p) _) m _ = _
  rw [applyStores_storesTo rfl, hinj.lastAt_offset (by rwa [hshape]), Option.map_some, Option.getD_some]
  have hload : load I (.int .int64 0) (tmpView st i b p) o m = m (tmpBase st i b p, (bufferView st i b p).offset o) := by
    rw [load_of_base rfl, hoff]
    congr 2
  show I.ewise .identity [some b.type, some b.type] [load I (.int .int64 0) (tmpView st i b p) o m] = _
  rw [hI, hload]

theorem arrived_shipEvents (hI : Copies I) (h : Reducible i b c) (hk : i.kind = .reduction)
    (hp : FaceBox i.axis i.operand1.shape p) (hs : Scattered st worldsize (fun r => (s r).mem) m)
    (hrank : OnRank worldsize p.1 p.2 i.operand1 c) :
    Arrived I st worldsize i b m p s (runEvents (shipEvents I st worldsize i b c p)
      (Function.update s (inRank worldsize i c p) (execInst I (reduceChunk i.opcode i.axis (tmpView st i b p)
        (inView st worldsize i c p)) (s (inRank worldsize i c p))))) := by
  have h1 : ∀ n ∈ p.2.eraseIdx i.axis, 1 ≤ n := fun n hn => hp.positive n (List.mem_of_mem_eraseIdx hn)
  have hreduced := fun o ho => runWhole_face (I := I) (o := o) h hk hp hs hrank ho
  generalize hj : reduceChunk i.opcode i.axis (tmpView st i b p) (inView st worldsize i c p) = j at hreduced ⊢
  have hjbase : j.operand0.base = some (tmpBase st i b p) := by rw [← hj]; rfl
  have hjframe : ∀ (m : Mem V) (l : Loc), l.1.addr ≠ st.ofChunk p.1 2 → runWhole I j m l = m l := by
    intro m l hl
    refine runWhole_of_base_ne I (fun heq => hl ?_) m
    rw [hjbase] at heq
    exact (congrArg BhBase.addr (Option.some.inj heq)).symm
  unfold shipEvents
  by_cases hsame : inRank worldsize i c p = outRank worldsize i b p
  · rw [if_pos hsame]
    show Arrived I st worldsize i b m p s (Function.update s _ _)
    refine ⟨fun r l _ hl => ?_, fun o ho => ?_, fun r x hx => Or.inl ?_⟩
    · by_cases hr : r = inRank worldsize i c p
      · subst hr
        rw [Function.update_self]
        exact hjframe _ l hl
      · rw [Function.update_of_ne hr]
    · rw [← hsame, Function.update_self]
      exact hreduced o ho
    · by_cases hr : r = inRank worldsize i c p
      · subst hr
        rw [Function.update_self] at hx
        exact hx
      · rwa [Function.update_of_ne hr] at hx
  · rw [if_neg hsame]
    -- the sender after the reduction and the copy
    obtain ⟨v, hv⟩ : ∃ v, v = inRank worldsize i c p := ⟨_, rfl⟩
    obtain ⟨w, hw⟩ : ∃ w, w = outRank worldsize i b p := ⟨_, rfl⟩
    obtain ⟨copied, hcopied⟩ : ∃ n : Node V, n = execInst I ⟨.identity, bufferView st i b p, tmpView st i b p, noView,
      .int .int64 0⟩ (execInst I j (s v)) := ⟨_, rfl⟩
    rw [← hv, ← hw] at hsame ⊢
    have hrun : ∀ r, runEvents ([Event.act v (execInst I ⟨.identity, bufferView st i b p, tmpView st i b p, noView,
        .int .int64 0⟩), .comm v w (sendView (p.1, 2) (bufferView st i b p)) (recvView (p.1, 2) (tmpView st i b p))] ++
          releaseAt I v (bufferBase st i b p)) (Function.update s v (execInst I j (s v))) r =
        if r = v then copied
        else if r = w then recvView (p.1, 2) (tmpView st i b p) (sendView (p.1, 2) (bufferView st i b p) copied) (s w)
        else s r := by
      intro r
      rw [hcopied]
      simp only [releaseAt, runEvents, List.cons_append, List.nil_append, List.foldl_cons, List.foldl_nil, Event.run,
        execInst, runWhole_onBaseInst (rfl : bhOpcodeIsSystem .free = true),
        runWhole_onBaseInst (rfl : bhOpcodeIsSystem .discard = true), Function.update_self, Function.update_idem,
        Function.update_of_ne hsame, Function.update_of_ne (Ne.symm hsame)]
      by_cases hrv : r = v
      · rw [if_pos hrv, hrv, Function.update_self]
      · rw [if_neg hrv, Function.update_of_ne hrv]
        by_cases hrw : r = w
        · rw [if_pos hrw, hrw, Function.update_self]
        · rw [if_neg hrw, Function.update_of_ne hrw, Function.update_of_ne hrv]
    have hcopyFrame : ∀ l : Loc, l.1.addr ≠ st.ofBuffer p.1 2 → l.1.addr ≠ st.ofChunk p.1 2 →
        copied.mem l = (s v).mem l := by
      intro l hbuffer hchunk
      rw [hcopied]
      refine (runWhole_of_base_ne I (fun heq => hbuffer ?_) _).trans (hjframe _ l hchunk)
      exact (congrArg BhBase.addr (Option.some.inj heq)).symm
    refine ⟨fun r l hbuffer hchunk => ?_, fun o ho => ?_, fun r x hx => ?_⟩
    · rw [hrun]
      split_ifs with hrv hrw
      · rw [hrv]
        exact hcopyFrame l hbuffer hchunk
      · rw [hrw]
        exact recvView_of_ne rfl fun heq => hchunk (congrArg BhBase.addr heq)
      · rfl
    · have hlt : flatIndex (p.2.eraseIdx i.axis) o < bhNelementsNbcast (bufferView st i b p) := by
        rw [bufferView, nbcast_wholeView h1]
        exact flatIndex_lt ho
      have hrecv : (recvView (p.1, 2) (tmpView st i b p) (sendView (p.1, 2) (bufferView st i b p) copied) (s w)).mem
          (tmpBase st i b p, 0 + (flatIndex (p.2.eraseIdx i.axis) o : ℤ)) =
            copied.mem (bufferBase st i b p, 0 + (flatIndex (p.2.eraseIdx i.axis) o : ℤ)) :=
        recvView_sendView rfl rfl hlt
      rw [zero_add] at hrecv
      rw [← hw, hrun, if_neg (Ne.symm hsame), if_pos rfl, hrecv, hcopied]
      refine (runWhole_copyTmp hI ho _).trans ?_
      rw [hv]
      exact hreduced o ho
    · rw [hrun] at hx
      split_ifs at hx with hrv hrw
      · rw [hrv]
        rw [hcopied] at hx
        exact Or.inl hx
      · rw [hrw]
        refine matched_recvView (a := bufferBase st i b p) (e := tmpBase st i b p) rfl rfl rfl ?_ x hx
        rw [bufferView, tmpView, nbcast_wholeView h1, nbcast_wholeView h1]
      · exact Or.inl hx

theorem runEvents_cleanup (p : List ℕ × List ℕ) (s : ℕ → Node V) :
    runEvents (cleanupEvents I st worldsize i b p) s = s := by
  have hrelease : ∀ r (a : BhBase) (s : ℕ → Node V), runEvents (releaseAt I r a) s = s := by
    intro r a s
    simp only [releaseAt, runEvents, List.foldl_cons, List.foldl_nil, Event.run, execInst,
      runWhole_onBaseInst (rfl : bhOpcodeIsSystem .free = true),
      runWhole_onBaseInst (rfl : bhOpcodeIsSystem .discard = true), Function.update_eq_self]
  unfold cleanupEvents
  induction List.range worldsize generalizing s with
  | nil => rfl
  | cons r rs ih =>
    rw [List.flatMap_cons, runEvents_append, runEvents_append, hrelease]
    split_ifs
    · exact ih s
    · rw [hrelease]
      exact ih s

/-- The last step of a box, with an elementwise instruction that stores `g`. -/
theorem scattered_faceEvents (hI : Copies I) (h : Reducible i b c) (hk : i.kind = .reduction)
    (hp : FaceBox i.axis i.operand1.shape p) (hs : Scattered st worldsize (fun r => (s r).mem) m)
    (hrank : OnRank worldsize p.1 p.2 i.operand1 c)
    (hrankOut : OnRank worldsize p.1 p.2 (bcastOutput i.axis i.operand0 i.operand1) b)
    {finish : BhView → BhView → BhInstruction} {g : List ℕ → V}
    (hfinish : ∀ out tmp, (finish out tmp).kind = .elementwise ∧ (finish out tmp).operand0 = out)
    (hvalue : ∀ m' : Mem V, ∀ o ∈ indices (p.2.eraseIdx i.axis),
      m' (tmpBase st i b p, (flatIndex (p.2.eraseIdx i.axis) o : ℤ)) =
        boxValue I i m p (List.zipWith (· + ·) (p.1.eraseIdx i.axis) o) →
      m' (arrayGetLocal st ⟨worldsize, outRank worldsize i b p⟩ b, (outView st worldsize i b p).offset o) =
        m (b, i.operand0.offset (List.zipWith (· + ·) (p.1.eraseIdx i.axis) o)) →
      ewiseAt I (finish (outView st worldsize i b p) (tmpView st i b p)) m' o =
        g (List.zipWith (· + ·) (p.1.eraseIdx i.axis) o)) :
    Scattered st worldsize (fun r => (runEvents (faceEvents I st worldsize i b c finish p) s r).mem)
        (storeFace i b p g m) ∧
      ∀ r, ∀ x ∈ (runEvents (faceEvents I st worldsize i b c finish p) s r).receipts,
        x ∈ (s r).receipts ∨ x.Matched := by
  have harr := arrived_shipEvents hI h hk hp hs hrank
  obtain ⟨s', hs'⟩ : ∃ s', s' = runEvents (shipEvents I st worldsize i b c p)
      (Function.update s (inRank worldsize i c p) (execInst I (reduceChunk i.opcode i.axis (tmpView st i b p)
        (inView st worldsize i c p)) (s (inRank worldsize i c p)))) := ⟨_, rfl⟩
  rw [← hs'] at harr
  obtain ⟨j, hj⟩ : ∃ j, j = finish (outView st worldsize i b p) (tmpView st i b p) := ⟨_, rfl⟩
  obtain ⟨hjk, hjout⟩ := hfinish (outView st worldsize i b p) (tmpView st i b p)
  rw [← hj] at hjk hjout
  obtain ⟨hlt, hinside⟩ := h.onRank_face hp hrankOut
  have hlenOut : (p.2.eraseIdx i.axis).length = i.operand0.dims.length := by
    have hfit := h.length_dims hp.ndim
    rw [List.length_eraseIdx_of_lt (hp.lengths ▸ hp.axis_lt), hp.lengths]
    omega
  have hrun : runEvents (faceEvents I st worldsize i b c finish p) s =
      Function.update s' (outRank worldsize i b p) (execInst I j (s' (outRank worldsize i b p))) := by
    show runEvents (shipEvents I st worldsize i b c p ++ _) (Function.update s _ _) = _
    rw [runEvents_append, ← hs', ← hj]
    exact runEvents_cleanup p _
  have hframe : Scattered st worldsize (fun r => (s' r).mem) m := by
    intro b' r k hr hk
    rw [← hs b' r k hr hk]
    exact harr.frame _ _ (st.buffer_ne_local _ _ _).symm (st.chunk_ne_local _ _ _).symm
  have hmems : (fun r => (runEvents (faceEvents I st worldsize i b c finish p) s r).mem) =
      Function.update (fun r => (s' r).mem) (outRank worldsize i b p)
        (runWhole I j (s' (outRank worldsize i b p)).mem) := by
    rw [hrun]
    exact mem_update_execInst I j s' _
  have hglobal : storeFace i b p g m = applyStores ((indices (p.2.eraseIdx i.axis)).map fun idx =>
      ((b, i.operand0.offset (List.zipWith (· + ·) (p.1.eraseIdx i.axis) idx)),
        g (List.zipWith (· + ·) (p.1.eraseIdx i.axis) idx))) m := by
    rw [storeFace, boxIndices, List.map_map]
    rfl
  refine ⟨?_, fun r x hx => ?_⟩
  · rw [hmems, hglobal, runWhole_localView hjk hjout hlenOut]
    refine hframe.store hlt hinside fun o ho => ?_
    rw [hj]
    refine hvalue _ o ho (harr.data o ho) ?_
    obtain ⟨hbounds, heq⟩ := hinside o ho
    have hoff : (outView st worldsize i b p).offset o =
        startAt worldsize p.1 (bcastOutput i.axis i.operand0 i.operand1) b + dot i.operand0.dims o := by
      rw [BhView.offset, outView, localView, dot_zipWith _ _ hlenOut]
    rw [hoff]
    exact hframe.element hlt hbounds heq
  · rw [hrun] at hx
    refine harr.receipts r x ?_
    by_cases hr : r = outRank worldsize i b p
    · subst hr
      rw [Function.update_self] at hx
      exact hx
    · rwa [Function.update_of_ne hr] at hx

theorem ewiseAt_initInst (hI : Copies I) (m : Mem V) (o : List ℕ) :
    ewiseAt I (initInst (outView st worldsize i b p) (tmpView st i b p)) m o =
      m (tmpBase st i b p, (flatIndex (p.2.eraseIdx i.axis) o : ℤ)) := by
  show I.ewise .identity [some b.type, some b.type] [load I (.int .int64 0) (tmpView st i b p) o m] = _
  rw [hI, load_of_base rfl, tmpView, offset_wholeView]

/-- The operation of `ufunc_reduce` is elementwise on two inputs. -/
theorem kind_of_reduceOperation {opcode operation : BhOpcode} (h : reduceOperation opcode = some operation) :
    bhKind opcode = .reduction ∧ bhKind operation = .elementwise ∧ bhOperands operation = 3 := by
  unfold reduceOperation at h
  split at h
  all_goals cases h
  all_goals decide

theorem ewiseAt_combineInst {operation : BhOpcode} (hop : bhOperands operation = 3) (m : Mem V) (o : List ℕ) :
    ewiseAt I (combineInst operation (outView st worldsize i b p) (tmpView st i b p)) m o =
      I.ewise operation [some b.type, some b.type, some b.type]
        [m (arrayGetLocal st ⟨worldsize, outRank worldsize i b p⟩ b, (outView st worldsize i b p).offset o),
          m (tmpBase st i b p, (flatIndex (p.2.eraseIdx i.axis) o : ℤ))] := by
  have hoperands : (combineInst operation (outView st worldsize i b p) (tmpView st i b p)).operands =
      [outView st worldsize i b p, outView st worldsize i b p, tmpView st i b p] := by
    show List.take (bhOperands operation) _ = _
    rw [hop]
    rfl
  have hload : load I (.int .int64 0) (tmpView st i b p) o m =
      m (tmpBase st i b p, (flatIndex (p.2.eraseIdx i.axis) o : ℤ)) := by
    rw [load_of_base rfl, tmpView, offset_wholeView]
  rw [ewiseAt, BhInstruction.types, BhInstruction.inputs, hoperands, ← hload]
  rfl

end Box

/-! ## All boxes -/

section Passes
variable {V : Type} {I : Interp V} {st : Stores} {worldsize : ℕ} {i : BhInstruction} {b c : BhBase}
  {boxes : List (List ℕ × List ℕ)}

/-- The boxes that `mapping_chunks` finds for a reduction. -/
structure Faced (worldsize : ℕ) (i : BhInstruction) (b c : BhBase) (p : List ℕ × List ℕ) : Prop
    extends FaceBox i.axis i.operand1.shape p where
  onOut : OnRank worldsize p.1 p.2 (bcastOutput i.axis i.operand0 i.operand1) b
  onIn : OnRank worldsize p.1 p.2 i.operand1 c

theorem Faced.ranks {p : List ℕ × List ℕ} (hp : Faced worldsize i b c p) :
    inRank worldsize i c p < worldsize ∧ outRank worldsize i b p < worldsize := by
  obtain ⟨rank, start, hloc, hlt, _⟩ := hp.onIn
  obtain ⟨rank', start', hloc', hlt', _⟩ := hp.onOut
  rw [inRank, outRank, rankAt, rankAt, hloc, hloc']
  exact ⟨hlt, hlt'⟩

/-- What every box does to the distributed arrays, all boxes do one after the other. -/
theorem scattered_flatMap {finish : BhView → BhView → BhInstruction} {F : List ℕ × List ℕ → Mem V → Mem V}
    (hstep : ∀ p ∈ boxes, ∀ (s : ℕ → Node V) (m : Mem V), Scattered st worldsize (fun r => (s r).mem) m →
      Scattered st worldsize (fun r => (runEvents (faceEvents I st worldsize i b c finish p) s r).mem) (F p m) ∧
        ∀ r, ∀ x ∈ (runEvents (faceEvents I st worldsize i b c finish p) s r).receipts,
          x ∈ (s r).receipts ∨ x.Matched)
    {s : ℕ → Node V} {m : Mem V} (hs : Scattered st worldsize (fun r => (s r).mem) m) :
    Scattered st worldsize (fun r =>
        (runEvents (boxes.flatMap (faceEvents I st worldsize i b c finish)) s r).mem) (boxes.foldl (fun m p => F p m) m) ∧
      ∀ r, ∀ x ∈ (runEvents (boxes.flatMap (faceEvents I st worldsize i b c finish)) s r).receipts,
        x ∈ (s r).receipts ∨ x.Matched := by
  induction boxes generalizing s m with
  | nil => exact ⟨hs, fun r x hx => Or.inl hx⟩
  | cons p boxes ih =>
    rw [List.forall_mem_cons] at hstep
    obtain ⟨hbox, hreceipts⟩ := hstep.1 s m hs
    obtain ⟨hall, hreceipts'⟩ := ih hstep.2 hbox
    rw [List.flatMap_cons, runEvents_append, List.foldl_cons]
    refine ⟨hall, fun r x hx => ?_⟩
    rcases hreceipts' r x hx with hx | hx
    · exact hreceipts r x hx
    · exact Or.inr hx

/-- The events of both passes. -/
def passEvents (I : Interp V) (st : Stores) (worldsize : ℕ) (i : BhInstruction) (b c : BhBase) (operation : BhOpcode)
    (boxes : List (List ℕ × List ℕ)) : List (Event ℕ (Node V) (Message V)) :=
  (boxes.filter fun p => p.1.getD i.axis 0 == 0).flatMap (faceEvents I st worldsize i b c initInst) ++
    (boxes.filter fun p => !(p.1.getD i.axis 0 == 0)).flatMap (faceEvents I st worldsize i b c (combineInst operation))

theorem scattered_passEvents (hI : Copies I) (h : Reducible i b c) {operation : BhOpcode}
    (hop : reduceOperation i.opcode = some operation) (hC : Combines I i.opcode operation b.type)
    (hbox : ∀ p ∈ boxes, Faced worldsize i b c p) (hndim : i.operand1.shape.length ≠ 1)
    (htiles : Box.Tiles (boxes.map fun p => (p.1, List.zipWith (· + ·) p.1 p.2))
      (List.replicate i.operand1.shape.length 0) i.operand1.shape)
    {s : ℕ → Node V} {m : Mem V} (hs : Scattered st worldsize (fun r => (s r).mem) m) :
    Scattered st worldsize (fun r => (runEvents (passEvents I st worldsize i b c operation boxes) s r).mem)
        (runWhole I i m) ∧
      ∀ r, ∀ x ∈ (runEvents (passEvents I st worldsize i b c operation boxes) s r).receipts,
        x ∈ (s r).receipts ∨ x.Matched := by
  obtain ⟨hk, hkop, hop3⟩ := kind_of_reduceOperation hop
  have htype : i.outType = some b.type := by rw [BhInstruction.outType, h.output]; rfl
  have hassoc : Std.Associative (I.sweep i.opcode i.outType) := htype ▸ hC.assoc
  have hcomm : Std.Commutative (I.sweep i.opcode i.outType) := htype ▸ hC.comm
  have hinit := @scattered_flatMap V I st worldsize i b c (boxes.filter fun p => p.1.getD i.axis 0 == 0)
    initInst (initFace I i b) (by
      intro p hp s m hs
      have hp := hbox p (List.mem_of_mem_filter hp)
      refine scattered_faceEvents hI h hk hp.toFaceBox hs hp.onIn hp.onOut (fun out tmp => ⟨rfl, rfl⟩) ?_
      intro m' o _ hdata _
      rw [ewiseAt_initInst hI, hdata]) _ _ hs
  have hcombine := @scattered_flatMap V I st worldsize i b c (boxes.filter fun p => !(p.1.getD i.axis 0 == 0))
    (combineInst operation) (combineFace I i b) (by
      intro p hp s m hs
      have hp := hbox p (List.mem_of_mem_filter hp)
      refine scattered_faceEvents hI h hk hp.toFaceBox hs hp.onIn hp.onOut (fun out tmp => ⟨hkop, rfl⟩) ?_
      intro m' o _ hdata hold
      rw [ewiseAt_combineInst hop3, hdata, hold, hC.ewise, htype]) _ _ hinit.1
  rw [foldl_passes_eq_runWhole h hk (fun p hp => (hbox p hp).toFaceBox) hndim htiles] at hcombine
  rw [passEvents, runEvents_append]
  refine ⟨hcombine.1, fun r x hx => ?_⟩
  rcases hcombine.2 r x hx with hx | hx
  · exact hinit.2 r x hx
  · exact Or.inr hx

/-- Every process finds the same boxes. -/
theorem exists_faces (hws : 1 ≤ worldsize) (h : Reducible i b c) (hndim : i.operand1.ndim ≠ 1) :
    ∃ boxes : List (List ℕ × List ℕ), (∀ p ∈ boxes, Faced worldsize i b c p) ∧
      Box.Tiles (boxes.map fun p => (p.1, List.zipWith (· + ·) p.1 p.2))
        (List.replicate i.operand1.shape.length 0) i.operand1.shape ∧
      ∀ st r, mappingChunks st ⟨worldsize, r⟩ (reduceOperands i) =
        some (boxes.map fun p => chunksAt st ⟨worldsize, r⟩ (reduceOperands i) p.1 p.2) := by
  have hshape : i.operand1.shape.length ≠ 1 := by simpa [BhView.shape, BhView.ndim] using hndim
  have hops : reduceOperands i = [bcastOutput i.axis i.operand0 i.operand1, i.operand1] := by
    rw [reduceOperands, if_neg hndim]
  obtain ⟨boxes, hboxes, hmap⟩ := mappingChunks_eq hws (h.mappable hshape)
  rw [shape_bcastOutput h.axis (h.length_dims hshape)] at hboxes
  rw [hops]
  refine ⟨boxes, fun p hp => ?_, hboxes.tiles, hmap⟩
  obtain ⟨hcorner, hlengths⟩ := hboxes.length p hp
  rw [List.length_replicate] at hcorner hlengths
  have hlen : ∀ q ∈ boxes, q.1.length = q.2.length :=
    fun q hq => (hboxes.length q hq).1.trans (hboxes.length q hq).2.symm
  refine ⟨⟨hshape, h.axis, hcorner, hlengths, ?_, fun x hx => ?_⟩, ?_, ?_⟩
  · exact one_le_of_forall₂_lt (hlen p hp) (hboxes.tiles.nonempty _ (List.mem_map_of_mem hp))
  · exact (mem_flatMap_boxIndices hlen hboxes.tiles).mp (List.mem_flatMap.mpr ⟨p, hp, hx⟩)
  · exact hboxes.onRank p hp _ List.mem_cons_self b h.output
  · exact hboxes.onRank p hp _ (List.mem_cons_of_mem _ List.mem_cons_self) c h.input

/-- The tasks of a pass. -/
def passTasks (st : Stores) (worldsize : ℕ) (i : BhInstruction) (finish : BhView → BhView → BhInstruction)
    (boxes : List (List ℕ × List ℕ)) (r : ℕ) : List Task :=
  boxes.flatMap fun p => faceTasks st r i finish (chunksAt st ⟨worldsize, r⟩ (reduceOperands i) p.1 p.2)

theorem isFirstRow_chunksAt (h : Reducible i b c) (r : ℕ) (p : List ℕ × List ℕ) :
    isFirstRow i.axis (chunksAt st ⟨worldsize, r⟩ (reduceOperands i) p.1 p.2) = (p.1.getD i.axis 0 == 0) := by
  have hbase : (if i.operand1.ndim = 1 then bcastOut i.operand0 i.operand1
      else bcastOutput i.axis i.operand0 i.operand1).base = some b := by
    split_ifs
    · exact h.output
    · exact h.output
  simp [chunksAt, reduceOperands, hbase, isFirstRow, coord_chunkOf]

theorem reducePasses_chunksAt (h : Reducible i b c) (operation : BhOpcode) (r : ℕ) :
    reducePasses st r i operation (boxes.map fun p => chunksAt st ⟨worldsize, r⟩ (reduceOperands i) p.1 p.2) =
      passTasks st worldsize i initInst (boxes.filter fun p => p.1.getD i.axis 0 == 0) r ++
        passTasks st worldsize i (combineInst operation) (boxes.filter fun p => !(p.1.getD i.axis 0 == 0)) r := by
  rw [reducePasses, List.filter_map, List.filter_map, List.flatMap_map, List.flatMap_map]
  simp only [Function.comp_def, isFirstRow_chunksAt h]
  rfl

theorem map_passTasks (h : Reducible i b c) (hndim : i.operand1.ndim ≠ 1) {finish : BhView → BhView → BhInstruction}
    (hbox : ∀ p ∈ boxes, Faced worldsize i b c p) (r : ℕ) :
    (if r < worldsize then (passTasks st worldsize i finish boxes r).map (Task.action I) else []) =
      (boxes.flatMap (faceEvents I st worldsize i b c finish)).flatMap (Event.project r) := by
  have hops : reduceOperands i = [bcastOutput i.axis i.operand0 i.operand1, i.operand1] := by
    rw [reduceOperands, if_neg hndim]
  rw [List.flatMap_assoc, ← List.flatMap_congr fun p hp =>
    map_faceTasks h (hbox p hp).toFaceBox (hbox p hp).ranks.1 (hbox p hp).ranks.2 r, passTasks, hops]
  split_ifs
  · rw [List.map_flatMap]
  · rw [eq_comm, List.flatMap_eq_nil_iff]
    intro p _
    rfl

theorem discards_passTasks (h : Reducible i b c) (hndim : i.operand1.ndim ≠ 1) (hop : i.opcode ≠ .discard)
    {finish : BhView → BhView → BhInstruction} (hfinish : ∀ out tmp, (finish out tmp).opcode ≠ .discard)
    (hbox : ∀ p ∈ boxes, Faced worldsize i b c p) (hcorner : boxes.Pairwise fun p q => p.1 ≠ q.1) (r : ℕ) :
    Discards (fun a => ∃ p ∈ boxes, ∃ k, a = st.ofBuffer p.1 k ∨ a = st.ofChunk p.1 k)
      (passTasks st worldsize i finish boxes r) := by
  have hops : reduceOperands i = [bcastOutput i.axis i.operand0 i.operand1, i.operand1] := by
    rw [reduceOperands, if_neg hndim]
  unfold passTasks
  rw [hops]
  refine Discards.flatMap (fun p hp => discards_faceTasks h (hbox p hp).toFaceBox hop hfinish r) ?_
  exact hcorner.imp fun {p q} hne a ha ha' => corner_apart hne ha ha'

/-- The chunks compute an output element. -/
def covers (axis : ℕ) (o : List ℕ) (group : List (Option AryChunk)) : Bool :=
  decide (Box.Mem ((groupBox group).1.eraseIdx axis) ((groupBox group).2.eraseIdx axis) o)

/-- Every output element is set by the chunks of exactly one first row, and every process schedules the
chunks of first rows before all others. -/
def SetOnce (st : Stores) (worldsize : ℕ) (i : BhInstruction) (operation : BhOpcode) (tasks : ℕ → List Task) : Prop :=
  ∀ r, ∃ groups, mappingChunks st ⟨worldsize, r⟩ (reduceOperands i) = some groups ∧
    tasks r = (groups.filter (isFirstRow i.axis)).flatMap (faceTasks st r i initInst) ++
      (groups.filter fun group => !isFirstRow i.axis group).flatMap (faceTasks st r i (combineInst operation)) ∧
    ∀ o ∈ indices i.operand0.shape, (groups.filter (isFirstRow i.axis)).countP (covers i.axis o) = 1

theorem countP_eq_one {α : Type} {P : α → Bool} {l : List α} (hpair : l.Pairwise fun x y => P x = true → P y = false)
    (hex : ∃ x ∈ l, P x = true) : l.countP P = 1 := by
  induction l with
  | nil =>
    obtain ⟨x, hx, _⟩ := hex
    cases hx
  | cons y l ih =>
    rw [List.pairwise_cons] at hpair
    by_cases hy : P y = true
    · rw [List.countP_cons_of_pos hy, Nat.add_eq_right, List.countP_eq_zero]
      intro z hz
      rw [hpair.1 z hz hy]
      exact Bool.false_ne_true
    · rw [List.countP_cons_of_neg hy]
      obtain ⟨x, hx, hPx⟩ := hex
      rcases List.mem_cons.mp hx with rfl | hx
      · exact absurd hPx hy
      · exact ih hpair.2 ⟨x, hx, hPx⟩

theorem covers_chunksAt (h : Reducible i b c) (hndim : i.operand1.ndim ≠ 1) {p : List ℕ × List ℕ}
    (hp : Faced worldsize i b c p) (r : ℕ) (o : List ℕ) :
    covers i.axis o (chunksAt st ⟨worldsize, r⟩ (reduceOperands i) p.1 p.2) = true ↔ boxFibre i.axis p o ≠ [] := by
  have hbase : (bcastOutput i.axis i.operand0 i.operand1).base = some b := h.output
  have hlen : p.2.length = (bcastOutput i.axis i.operand0 i.operand1).dims.length := by
    rw [hp.lengths, ← shape_bcastOutput h.axis (h.length_dims hp.ndim), BhView.shape, List.length_map]
  have hgroup : groupBox (chunksAt st ⟨worldsize, r⟩ (reduceOperands i) p.1 p.2) =
      (p.1, List.zipWith (· + ·) p.1 p.2) := by
    rw [reduceOperands, if_neg hndim]
    simp only [chunksAt, List.zipIdx_cons, List.map_cons, hbase, Option.map_some, groupBox, coord_chunkOf,
      shape_chunkOf hlen]
  have haxis : i.axis < p.1.length := hp.corner ▸ hp.axis_lt
  have hface : (face i.axis p).1.length = (face i.axis p).2.length := by
    rw [face, List.length_eraseIdx_of_lt haxis, List.length_eraseIdx_of_lt (hp.length_eq ▸ haxis), hp.length_eq]
  rw [covers, hgroup, decide_eq_true_iff, Box.eraseIdx_zipWith_add, ← hp.mem_face_iff, mem_boxIndices hface]
  rfl

theorem setOnce_passTasks (h : Reducible i b c) (hndim : i.operand1.ndim ≠ 1) (operation : BhOpcode)
    (hbox : ∀ p ∈ boxes, Faced worldsize i b c p)
    (htiles : Box.Tiles (boxes.map fun p => (p.1, List.zipWith (· + ·) p.1 p.2))
      (List.replicate i.operand1.shape.length 0) i.operand1.shape)
    (hmap : ∀ r, mappingChunks st ⟨worldsize, r⟩ (reduceOperands i) =
      some (boxes.map fun p => chunksAt st ⟨worldsize, r⟩ (reduceOperands i) p.1 p.2)) :
    SetOnce st worldsize i operation fun r =>
      passTasks st worldsize i initInst (boxes.filter fun p => p.1.getD i.axis 0 == 0) r ++
        passTasks st worldsize i (combineInst operation) (boxes.filter fun p => !(p.1.getD i.axis 0 == 0)) r := by
  have hshape : i.operand1.shape.length ≠ 1 := by simpa [BhView.shape, BhView.ndim] using hndim
  intro r
  refine ⟨_, hmap r, (reducePasses_chunksAt h operation r).symm, fun o ho => ?_⟩
  rw [List.filter_map, List.countP_map]
  simp only [Function.comp_def, isFirstRow_chunksAt h]
  have hmem : ∀ p ∈ boxes.filter fun p => p.1.getD i.axis 0 == 0, Faced worldsize i b c p :=
    fun p hp => hbox p (List.mem_of_mem_filter hp)
  apply countP_eq_one
  · refine (pairwise_first (fun p hp => (hbox p hp).toFaceBox) htiles).imp_of_mem fun {p q} hp hq hpq hcov => ?_
    rw [Bool.eq_false_iff]
    intro hcov'
    exact (covers_chunksAt h hndim (hmem q hq) r o).mp hcov'
      (hpq o ((covers_chunksAt h hndim (hmem p hp) r o).mp hcov))
  · obtain ⟨p, hp, hrow, hpo⟩ := exists_first (fun p hp => (hbox p hp).toFaceBox) htiles h.axis hshape h.positive
      (h.shape ▸ ho)
    exact ⟨p, List.mem_filter.mpr ⟨hp, by simpa using hrow⟩, (covers_chunksAt h hndim (hbox p hp) r o).mpr hpo⟩

/-- What `ufunc_reduce` comes to on all processes, with more than one dimension. -/
theorem exists_passes (hI : Copies I) (st : Stores) (hws : 1 ≤ worldsize) (h : Reducible i b c)
    (hndim : i.operand1.ndim ≠ 1) {operation : BhOpcode} (hop : reduceOperation i.opcode = some operation)
    (hC : Combines I i.opcode operation b.type) :
    ∃ tasks events, (∀ r, ufuncReduce st ⟨worldsize, r⟩ i operation = some (tasks r)) ∧
      Performs I st worldsize tasks events (runWhole I i) ∧ SetOnce st worldsize i operation tasks := by
  have hshape : i.operand1.shape.length ≠ 1 := by simpa [BhView.shape, BhView.ndim] using hndim
  obtain ⟨hk, hkop, _⟩ := kind_of_reduceOperation hop
  have hnot : i.opcode ≠ .discard ∧ operation ≠ .discard := by
    refine ⟨?_, ?_⟩
    · intro heq
      rw [heq] at hk
      exact absurd hk (by decide)
    · intro heq
      rw [heq] at hkop
      exact absurd hkop (by decide)
  obtain ⟨boxes, hbox, htiles, hmap⟩ := exists_faces hws h hndim
  obtain ⟨firsts, hfirsts⟩ : ∃ l, l = boxes.filter fun p => p.1.getD i.axis 0 == 0 := ⟨_, rfl⟩
  obtain ⟨rests, hrests⟩ : ∃ l, l = boxes.filter fun p => !(p.1.getD i.axis 0 == 0) := ⟨_, rfl⟩
  have hfbox : ∀ p ∈ firsts, Faced worldsize i b c p := fun p hp => hbox p (List.mem_of_mem_filter (hfirsts ▸ hp))
  have hrbox : ∀ p ∈ rests, Faced worldsize i b c p := fun p hp => hbox p (List.mem_of_mem_filter (hrests ▸ hp))
  -- the corners of all boxes, in the order of the passes
  have hcorner : (firsts ++ rests).Pairwise fun p q => p.1 ≠ q.1 := by
    rw [hfirsts, hrests]
    exact (List.Perm.pairwise_iff (fun h => h.symm) (List.filter_append_perm _ boxes)).mpr (pairwise_corner htiles)
  obtain ⟨hcf, hcr, hcross⟩ := List.pairwise_append.mp hcorner
  refine ⟨fun r => passTasks st worldsize i initInst firsts r ++ passTasks st worldsize i (combineInst operation) rests r,
    passEvents I st worldsize i b c operation boxes, fun r => ?_, ⟨?_, ?_, ?_⟩, ?_⟩
  · rw [ufuncReduce, hmap st r, Option.map_some, if_neg hndim, reducePasses_chunksAt h, ← hfirsts, ← hrests]
    have hfirst := @discards_passTasks st worldsize _ _ _ _ h hndim hnot.1 initInst
      (fun _ _ => show BhOpcode.identity ≠ .discard by decide) hfbox hcf r
    have hrest := @discards_passTasks st worldsize _ _ _ _ h hndim hnot.1 (combineInst operation)
      (fun _ _ => hnot.2) hrbox hcr r
    have hall := hfirst.append hrest (by
        rintro a ⟨p, hp, ha⟩ ⟨q, hq, ha'⟩
        exact corner_apart (hcross p hp q hq) ha ha')
    exact congrArg some (@foldl_batchSchedule [] _ hall.1)
  · intro r
    rw [passEvents, ← hfirsts, ← hrests, List.flatMap_append, ← map_passTasks h hndim hfbox,
      ← map_passTasks h hndim hrbox]
    split_ifs
    · rw [List.map_append]
    · rfl
  · intro e he
    rcases List.mem_append.mp he with he | he
    · obtain ⟨p, _, he⟩ := List.mem_flatMap.mp he
      exact proper_faceEvents e he
    · obtain ⟨p, _, he⟩ := List.mem_flatMap.mp he
      exact proper_faceEvents e he
  · intro s m hs
    exact scattered_passEvents hI h hop hC hbox hshape htiles hs
  · rw [hfirsts, hrests]
    exact setOnce_passTasks h hndim operation hbox htiles fun r => hmap st r

end Passes

end Bohrium.Cluster
