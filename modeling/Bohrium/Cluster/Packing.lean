import Bohrium.Cluster.Tiling
import Bohrium.Cluster.Batch

/-! # What travels between processes

The sender packs the elements of its local view into a buffer and the receiver unpacks them from a
temporary array. Both compute the packed layout on their own, one from the positive strides of its
local view and one from the global strides that are not zero; the layouts are the same, and an
element of the chunk lies at the same place in both. -/
namespace Bohrium.Cluster
open Strided Network
set_option autoImplicit false

/-! ## The packed layout -/

section Layout
variable {shape : List ℕ} {ds : List Dim} {idx idx' : List ℕ}

/-- The packed elements fill a base of `packedNelem` elements. -/
theorem dot_packedDims_bounds (hlen : shape.length = ds.length) (hidx : List.Forall₂ (· < ·) idx shape) :
    0 ≤ dot (packedDims shape ds) idx ∧ dot (packedDims shape ds) idx < packedNelem shape ds := by
  induction hidx generalizing ds with
  | nil =>
    cases ds with
    | nil => simp [packedDims, dot, packedNelem]
    | cons d ds => cases hlen
  | @cons i n is shape hi his ih =>
    cases ds with
    | nil => cases hlen
    | cons d ds =>
      have hlen' : shape.length = ds.length := by simpa using hlen
      obtain ⟨h0, hlt⟩ := ih hlen'
      simp only [packedDims, dot, packedNelem]
      split_ifs
      · simp only [mul_zero, zero_add]
        exact ⟨h0, hlt⟩
      · refine ⟨by positivity, ?_⟩
        have hmul : ((i : ℤ) + 1) * packedNelem shape ds ≤ n * packedNelem shape ds := by
          apply mul_le_mul_of_nonneg_right _ (Int.natCast_nonneg _)
          exact_mod_cast hi
        push_cast
        linarith

/-- Elements at one place of the packed layout are one element of the operand. -/
theorem dot_eq_of_dot_packedDims (hlen : shape.length = ds.length) (hidx : List.Forall₂ (· < ·) idx shape)
    (hidx' : List.Forall₂ (· < ·) idx' shape)
    (h : dot (packedDims shape ds) idx = dot (packedDims shape ds) idx') : dot ds idx = dot ds idx' := by
  induction hidx generalizing ds idx' with
  | nil =>
    cases hidx'
    rfl
  | @cons i n is shape hi his ih =>
    cases hidx' with
    | @cons i' _ is' _ hi' his' =>
      cases ds with
      | nil => cases hlen
      | cons d ds =>
        have hlen' : shape.length = ds.length := by simpa using hlen
        obtain ⟨h0, hlt⟩ := dot_packedDims_bounds hlen' his
        obtain ⟨h0', hlt'⟩ := dot_packedDims_bounds hlen' his'
        simp only [packedDims, dot] at h ⊢
        by_cases hd : d.stride = 0
        · simp only [hd, if_true, mul_zero, zero_add] at h ⊢
          exact ih hlen' his' h
        · rw [if_neg hd] at h
          -- the digits of a number with base `packedNelem`
          have hdiv : (i : ℤ) = i' := by
            have hq := congrArg (· / (packedNelem shape ds : ℤ)) h
            have hpos : (packedNelem shape ds : ℤ) ≠ 0 := by omega
            rwa [Int.add_comm, Int.add_mul_ediv_right _ _ hpos, Int.ediv_eq_zero_of_lt h0 hlt, Int.zero_add,
              Int.add_comm, Int.add_mul_ediv_right _ _ hpos, Int.ediv_eq_zero_of_lt h0' hlt', Int.zero_add] at hq
          rw [hdiv] at h ⊢
          rw [ih hlen' his' (by linarith)]

theorem one_le_packedNelem (h1 : ∀ n ∈ shape, 1 ≤ n) (ds : List Dim) : 1 ≤ packedNelem shape ds := by
  induction shape generalizing ds with
  | nil => cases ds <;> exact le_rfl
  | cons n shape ih =>
    rw [List.forall_mem_cons] at h1
    cases ds with
    | nil => exact le_rfl
    | cons d ds =>
      rw [packedNelem]
      split_ifs
      · exact ih h1.2 ds
      · exact Nat.mul_pos (ih h1.2 ds) h1.1

/-- The number of elements that the receiver expects. -/
theorem nbcast_packedDims (h1 : ∀ n ∈ shape, 1 ≤ n) (hlen : shape.length = ds.length) :
    (((packedDims shape ds).filter fun d => 0 < d.stride).map Dim.shape).prod = packedNelem shape ds := by
  induction shape generalizing ds with
  | nil => cases ds <;> rfl
  | cons n shape ih =>
    rw [List.forall_mem_cons] at h1
    cases ds with
    | nil => cases hlen
    | cons d ds =>
      have hlen' : shape.length = ds.length := by simpa using hlen
      have ih := ih h1.2 hlen'
      have hpos := one_le_packedNelem h1.2 ds
      rw [packedDims, packedNelem]
      by_cases hd : d.stride = 0
      · simp only [hd, if_true, List.filter_cons, lt_irrefl, decide_false, Bool.false_eq_true, if_false, ih]
      · simp only [hd, if_false, List.filter_cons, Nat.cast_pos, show 0 < packedNelem shape ds from hpos,
          decide_true, if_true, List.map_cons, List.prod_cons, ih, Nat.mul_comm]

/-- The number of elements that the sender counts. -/
theorem nbcast_zipWith (hlen : shape.length = ds.length) (hds : ∀ d ∈ ds, 0 ≤ d.stride) :
    (((List.zipWith (fun n d => (⟨n, d.stride⟩ : Dim)) shape ds).filter fun d => 0 < d.stride).map
      Dim.shape).prod = packedNelem shape ds := by
  induction shape generalizing ds with
  | nil => cases ds <;> rfl
  | cons n shape ih =>
    cases ds with
    | nil => cases hlen
    | cons d ds =>
      rw [List.forall_mem_cons] at hds
      have hlen' : shape.length = ds.length := by simpa using hlen
      have ih := ih hlen' hds.2
      rw [List.zipWith_cons_cons, packedNelem]
      by_cases hd : d.stride = 0
      · simp only [hd, if_true, List.filter_cons, lt_irrefl, decide_false, Bool.false_eq_true, if_false, ih]
      · have hpos : 0 < d.stride := by omega
        simp only [hd, if_false, List.filter_cons, hpos, decide_true, if_true, List.map_cons, List.prod_cons,
          ih, Nat.mul_comm]

/-- Sender and receiver pack the same way. -/
theorem sendDims_zipWith (hlen : shape.length = ds.length) (hds : ∀ d ∈ ds, 0 ≤ d.stride) :
    sendDims (List.zipWith (fun n d => (⟨n, d.stride⟩ : Dim)) shape ds) = packedDims shape ds := by
  induction shape generalizing ds with
  | nil => cases ds <;> rfl
  | cons n shape ih =>
    cases ds with
    | nil => cases hlen
    | cons d ds =>
      rw [List.forall_mem_cons] at hds
      have hlen' : shape.length = ds.length := by simpa using hlen
      rw [List.zipWith_cons_cons, sendDims, packedDims, ih hlen' hds.2, nbcast_zipWith hlen' hds.2]
      by_cases hd : d.stride = 0
      · simp [hd]
      · have hpos : 0 < d.stride := by omega
        simp [hd, hpos]

end Layout

/-! ## Messages -/

section Messages
variable {V : Type} {id : ChunkId} {v : BhView} {b : BhBase} {msg : Message V} {s : Node V}

theorem sendView_eq (hb : v.base = some b) : sendView id v s = ⟨id, viewBytes v b,
    (List.range (bhNelementsNbcast v)).map fun k : ℕ => s.mem (b, v.start + k)⟩ := by
  simp only [sendView, hb]

theorem recvView_receipts (hb : v.base = some b) :
    (recvView id v msg s).receipts = s.receipts ++ [⟨id, viewBytes v b, msg.id, msg.bytes⟩] := by
  simp only [recvView, hb]

theorem recvView_of_ne (hb : v.base = some b) {l : Loc} (hl : l.1 ≠ b) : (recvView id v msg s).mem l = s.mem l := by
  simp [recvView, hb, hl]

theorem recvView_of_data (hb : v.base = some b) {k : ℕ} {x : V} (hx : msg.data[k]? = some x) :
    (recvView id v msg s).mem (b, v.start + k) = x := by
  simp [recvView, hb, hx]

end Messages

/-! ## One transfer -/

/-- `BH_IDENTITY` between arrays of one type copies. -/
def Copies {V : Type} (I : Interp V) : Prop := ∀ type x, I.ewise .identity [some type, some type] [x] = x

/-- The buffer that the sender packs. -/
def sendTmp (st : Stores) (lo shape : List ℕ) (k : ℕ) (v : BhView) (b : BhBase) : BhView :=
  ⟨some ⟨st.ofBuffer lo k, b.type, packedNelem shape v.dims⟩, 0, packedDims shape v.dims⟩

/-- The array that the receiver unpacks. -/
def recvTmp (st : Stores) (lo shape : List ℕ) (k : ℕ) (v : BhView) (b : BhBase) : BhView :=
  ⟨some ⟨st.ofChunk lo k, b.type, packedNelem shape v.dims⟩, 0, packedDims shape v.dims⟩

/-- The operand's part of a box, as a view of the local array. -/
def localView (st : Stores) (worldsize rank : ℕ) (start : ℤ) (shape : List ℕ) (v : BhView) (b : BhBase) : BhView :=
  ⟨some (arrayGetLocal st ⟨worldsize, rank⟩ b), start, List.zipWith (fun n d => ⟨n, d.stride⟩) shape v.dims⟩

section Transfer
variable {V : Type} (I : Interp V) (st : Stores) (worldsize rank w : ℕ) (start : ℤ) (lo shape : List ℕ) (k : ℕ)
  (v : BhView) (b : BhBase)

def execInst (i : BhInstruction) (s : Node V) : Node V := { s with mem := runWhole I i s.mem }

/-- The copy into the buffer. -/
def copyInst : BhInstruction :=
  ⟨.identity, sendTmp st lo shape k v b, localView st worldsize rank start shape v b, noView, .int .int64 0⟩

def onBaseInst (opcode : BhOpcode) (b : BhBase) : BhInstruction :=
  ⟨opcode, ⟨some b, 0, [⟨b.nelem, 1⟩]⟩, noView, noView, .int .int64 0⟩

/-- The events that bring the part of an operand in a box from `rank` to `w`. -/
def transfer : List (Event ℕ (Node V) (Message V)) :=
  let buffer : BhBase := ⟨st.ofBuffer lo k, b.type, packedNelem shape v.dims⟩
  [.act rank (execInst I (copyInst st worldsize rank start lo shape k v b)),
    .comm rank w (sendView (lo, k) (sendTmp st lo shape k v b)) (recvView (lo, k) (recvTmp st lo shape k v b)),
    .act rank (execInst I (onBaseInst .free buffer)), .act rank (execInst I (onBaseInst .discard buffer))]

variable {I st worldsize rank w start lo shape k v b}

theorem runWhole_elementwise {i : BhInstruction} (hk : i.kind = .elementwise) (m : Mem V) :
    runWhole I i m = applyStores (storesTo i.operand0 fun idx =>
      I.ewise i.opcode i.types (i.inputs.map fun v => load I i.constant v idx m)) m := by
  simp only [runWhole, wholeStores, hk]

/-- The buffer holds every element of the local part. -/
theorem runWhole_copyInst (hI : Copies I) (hlen : shape.length = v.dims.length) {idx : List ℕ}
    (hidx : idx ∈ indices shape) (m : Mem V) :
    runWhole I (copyInst st worldsize rank start lo shape k v b) m
        (⟨st.ofBuffer lo k, b.type, packedNelem shape v.dims⟩, dot (packedDims shape v.dims) idx) =
      m (arrayGetLocal st ⟨worldsize, rank⟩ b, start + dot v.dims idx) := by
  have hshape : (sendTmp st lo shape k v b).shape = shape := map_shape_packedDims shape v.dims hlen
  have hoff : ∀ j, (sendTmp st lo shape k v b).offset j = dot (packedDims shape v.dims) j := by
    intro j
    rw [BhView.offset, sendTmp, zero_add]
  rw [runWhole_elementwise rfl]
  show applyStores (storesTo (sendTmp st lo shape k v b) _) m _ = _
  rw [applyStores_storesTo rfl]
  obtain ⟨idx', hlast⟩ := BhView.lastAt_isSome (v := sendTmp st lo shape k v b) (by rwa [hshape])
  rw [hoff] at hlast
  rw [hlast, Option.map_some, Option.getD_some]
  obtain ⟨hmem, heq⟩ := BhView.lastAt_mem hlast
  rw [hshape] at hmem
  rw [hoff] at heq
  have hdot := dot_eq_of_dot_packedDims hlen (mem_indices.mp hmem) (mem_indices.mp hidx) heq
  have hload : load I (.int .int64 0) (localView st worldsize rank start shape v b) idx' m =
      m (arrayGetLocal st ⟨worldsize, rank⟩ b, start + dot v.dims idx') := by
    rw [load_of_base rfl, BhView.offset, localView, dot_zipWith shape v.dims hlen]
  show I.ewise .identity [some b.type, some b.type]
    [load I (.int .int64 0) (localView st worldsize rank start shape v b) idx' m] = _
  rw [hI, hload, hdot]

theorem runWhole_onBaseInst {opcode : BhOpcode} (h : bhOpcodeIsSystem opcode = true) (b : BhBase) (m : Mem V) :
    runWhole I (onBaseInst opcode b) m = m := runWhole_system I (i := onBaseInst opcode b) h m

/-- The state after a transfer: the receiver has the elements, every array but the two temporary
ones is as before, and the receipt matches. -/
structure Transferred (st : Stores) (worldsize rank w : ℕ) (start : ℤ) (lo shape : List ℕ) (k : ℕ)
    (v : BhView) (b : BhBase) (s s' : ℕ → Node V) : Prop where
  frame : ∀ r (l : Loc), l.1.addr ≠ st.ofBuffer lo k → l.1.addr ≠ st.ofChunk lo k → (s' r).mem l = (s r).mem l
  data : ∀ idx ∈ indices shape, (s' w).mem
      (⟨st.ofChunk lo k, b.type, packedNelem shape v.dims⟩, dot (packedDims shape v.dims) idx) =
    (s rank).mem (arrayGetLocal st ⟨worldsize, rank⟩ b, start + dot v.dims idx)
  receipts : ∀ r, ∀ x ∈ (s' r).receipts, x ∈ (s r).receipts ∨ x.Matched

theorem transferred_transfer (hI : Copies I) (hne : rank ≠ w) (hlen : shape.length = v.dims.length)
    (h1 : ∀ n ∈ shape, 1 ≤ n) (s : ℕ → Node V) :
    Transferred st worldsize rank w start lo shape k v b s
      (runEvents (transfer I st worldsize rank w start lo shape k v b) s) := by
  have hcount : bhNelementsNbcast (sendTmp st lo shape k v b) = packedNelem shape v.dims :=
    nbcast_packedDims h1 hlen
  have hcount' : bhNelementsNbcast (recvTmp st lo shape k v b) = packedNelem shape v.dims :=
    nbcast_packedDims h1 hlen
  -- the sender after the copy, and the message
  obtain ⟨copied, hcopied⟩ : ∃ n : Node V, n = execInst I (copyInst st worldsize rank start lo shape k v b) (s rank) :=
    ⟨_, rfl⟩
  obtain ⟨msg, hmsg⟩ : ∃ msg, msg = sendView (lo, k) (sendTmp st lo shape k v b) copied := ⟨_, rfl⟩
  have hother : ∀ r, r ≠ rank → r ≠ w →
      runEvents (transfer I st worldsize rank w start lo shape k v b) s r = s r := by
    intro r hr hw
    simp [runEvents, transfer, Event.run, hr, hw]
  have hsender : runEvents (transfer I st worldsize rank w start lo shape k v b) s rank = copied := by
    rw [hcopied]
    simp only [runEvents, transfer, List.foldl_cons, List.foldl_nil, Event.run, Function.update_self,
      Function.update_of_ne hne, execInst, runWhole_onBaseInst (rfl : bhOpcodeIsSystem .free = true),
      runWhole_onBaseInst (rfl : bhOpcodeIsSystem .discard = true)]
  have hreceiver : runEvents (transfer I st worldsize rank w start lo shape k v b) s w =
      recvView (lo, k) (recvTmp st lo shape k v b) msg (s w) := by
    rw [hmsg, hcopied]
    simp [runEvents, transfer, Event.run, hne, hne.symm]
  have hbytes : msg.bytes = viewBytes (recvTmp st lo shape k v b)
      ⟨st.ofChunk lo k, b.type, packedNelem shape v.dims⟩ := by
    rw [hmsg, sendView_eq rfl, viewBytes, viewBytes, hcount, hcount']
  refine ⟨?_, ?_, ?_⟩
  · intro r l hbuffer hchunk
    by_cases hw : r = w
    · subst hw
      rw [hreceiver]
      exact recvView_of_ne rfl fun h => hchunk (congrArg BhBase.addr h)
    · by_cases hr : r = rank
      · subst hr
        rw [hsender, hcopied]
        refine runWhole_of_base_ne I (fun h => hbuffer ?_) _
        exact (congrArg BhBase.addr (Option.some.inj h)).symm
      · rw [hother r hr hw]
  · intro idx hidx
    obtain ⟨h0, hlt⟩ := dot_packedDims_bounds hlen (mem_indices.mp hidx)
    have hcopy : runWhole I (copyInst st worldsize rank start lo shape k v b) (s rank).mem _ = _ :=
      runWhole_copyInst hI hlen hidx (s rank).mem
    rw [hreceiver, ← hcopy]
    generalize dot (packedDims shape v.dims) idx = j at h0 hlt ⊢
    obtain ⟨j, rfl⟩ := Int.eq_ofNat_of_zero_le h0
    have hj : j < packedNelem shape v.dims := by exact_mod_cast hlt
    have hdata : msg.data[j]? = some (copied.mem (⟨st.ofBuffer lo k, b.type, packedNelem shape v.dims⟩, 0 + (j : ℤ))) := by
      rw [hmsg, sendView_eq rfl, hcount, List.getElem?_map, List.getElem?_range hj, Option.map_some]
      rfl
    have hrecv : (recvView (lo, k) (recvTmp st lo shape k v b) msg (s w)).mem _ = _ := recvView_of_data rfl hdata
    rw [hcopied] at hrecv
    rw [← zero_add (j : ℤ)]
    exact hrecv
  · intro r x hx
    by_cases hw : r = w
    · subst hw
      rw [hreceiver, recvView_receipts rfl] at hx
      rcases List.mem_append.mp hx with hx | hx
      · exact Or.inl hx
      · rw [List.mem_singleton.mp hx]
        exact Or.inr ⟨by rw [hmsg, sendView_eq rfl], hbytes⟩
    · by_cases hr : r = rank
      · subst hr
        rw [hsender, hcopied] at hx
        exact Or.inl hx
      · rw [hother r hr hw] at hx
        exact Or.inl hx

end Transfer

end Bohrium.Cluster
