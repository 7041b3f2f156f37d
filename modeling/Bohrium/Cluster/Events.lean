import Bohrium.Cluster.Packing

/-! # Global events

The tasks that the processes schedule for a box, seen together: each transfer to the process that
owns the output, the computation there, and the release of what was received. Every process has its
part of these events before it, in the same order. -/
namespace Bohrium.Cluster
open Strided Network
set_option autoImplicit false

/-- The process that holds an operand's element at a corner. -/
def rankAt (worldsize : ℕ) (lo : List ℕ) (v : BhView) (b : BhBase) : ℕ :=
  (locate worldsize b.nelem (v.offset lo)).1

/-- The offset of that element on the process. -/
def startAt (worldsize : ℕ) (lo : List ℕ) (v : BhView) (b : BhBase) : ℤ :=
  (locate worldsize b.nelem (v.offset lo)).2.1

section Events
variable {V : Type} (I : Interp V) (st : Stores) (worldsize : ℕ) (lo shape : List ℕ) (w : ℕ)

/-- The events that bring an operand's part of a box to process `w`. -/
def operandEvents (p : BhView × ℕ) : List (Event ℕ (Node V) (Message V)) :=
  match p.1.base with
  | none => []
  | some b =>
    if rankAt worldsize lo p.1 b = w then []
    else transfer I st worldsize (rankAt worldsize lo p.1 b) w (startAt worldsize lo p.1 b) lo shape p.2 p.1 b

/-- The release of the array that received an operand's part. -/
def releaseEvents (p : BhView × ℕ) : List (Event ℕ (Node V) (Message V)) :=
  match p.1.base with
  | none => []
  | some b =>
    if rankAt worldsize lo p.1 b = w then []
    else
      let chunk : BhBase := ⟨st.ofChunk lo p.2, b.type, packedNelem shape p.1.dims⟩
      [.act w (execInst I (onBaseInst .free chunk)), .act w (execInst I (onBaseInst .discard chunk))]

/-- The events of a box whose output is on process `w`. -/
def boxEvents (i : BhInstruction) : List (Event ℕ (Node V) (Message V)) :=
  i.operands.zipIdx.flatMap (operandEvents I st worldsize lo shape w) ++
    .act w (execInst I (localInst i (chunksAt st ⟨worldsize, w⟩ i.operands lo shape))) ::
      i.operands.zipIdx.flatMap (releaseEvents I st worldsize lo shape w)

end Events

/-! ## Positions -/

theorem zipIdx_zipIdx {α : Type} (l : List α) (n : ℕ) :
    (l.zipIdx n).zipIdx n = (l.zipIdx n).map fun p => (p, p.2) := by
  induction l generalizing n with
  | nil => rfl
  | cons a l ih => simp [ih]

theorem zipIdx_map_zipIdx {α β : Type} (f : α × ℕ → β) (l : List α) :
    (l.zipIdx.map f).zipIdx = l.zipIdx.map fun p => (f p, p.2) := by
  rw [List.zipIdx_map, zipIdx_zipIdx, List.map_map]
  rfl

/-! ## The part of a process -/

section Project
variable {V : Type} {I : Interp V} {st : Stores} {worldsize : ℕ} {lo shape : List ℕ} {w : ℕ}

theorem chunkOf_rankAt {r k : ℕ} {v : BhView} {b : BhBase} (h : rankAt worldsize lo v b = r) :
    chunkOf st ⟨worldsize, r⟩ lo shape k v b =
      ⟨r, localView st worldsize r (startAt worldsize lo v b) shape v b, lo, false⟩ := by
  have hchunk : chunkOf st ⟨worldsize, r⟩ lo shape k v b = _ := chunkOf_local rfl h
  rw [hchunk]
  subst h
  rfl

theorem chunkOf_of_ne {r k : ℕ} {v : BhView} {b : BhBase} (h : rankAt worldsize lo v b ≠ r) :
    chunkOf st ⟨worldsize, r⟩ lo shape k v b =
      ⟨rankAt worldsize lo v b, recvTmp st lo shape k v b, lo, true⟩ :=
  chunkOf_remote rfl h

theorem action_inst (i : BhInstruction) : (Task.inst i).action I = .act (execInst I i) := rfl

theorem map_release (b : BhBase) : (release b).map (Task.action I) =
    [.act (execInst I (onBaseInst .free b)), .act (execInst I (onBaseInst .discard b))] := rfl

/-- What the sender schedules. -/
theorem commArrayData_localView {rank k : ℕ} {start : ℤ} {v : BhView} {b : BhBase} (hne : rank ≠ w)
    (hlen : shape.length = v.dims.length) (hds : ∀ d ∈ v.dims, 0 ≤ d.stride) :
    commArrayData st rank (lo, k) ⟨rank, localView st worldsize rank start shape v b, lo, false⟩ w =
      [.inst (copyInst st worldsize rank start lo shape k v b), .send (lo, k) w (sendTmp st lo shape k v b)] ++
        release ⟨st.ofBuffer lo k, b.type, packedNelem shape v.dims⟩ := by
  have hcount : bhNelementsNbcast (localView st worldsize rank start shape v b) = packedNelem shape v.dims :=
    nbcast_zipWith hlen hds
  have hdims : sendDims (localView st worldsize rank start shape v b).dims = packedDims shape v.dims :=
    sendDims_zipWith hlen hds
  have htmp : (⟨some ⟨st.ofBuffer lo k, b.type, bhNelementsNbcast (localView st worldsize rank start shape v b)⟩, 0,
      sendDims (localView st worldsize rank start shape v b).dims⟩ : BhView) = sendTmp st lo shape k v b := by
    rw [hcount, hdims, sendTmp]
  rw [commArrayData, if_neg hne, if_neg hne, if_pos rfl, copyInst, ← htmp, ← hcount]
  rfl

/-- What a process schedules for the transfer of one operand. -/
def operandTasks (st : Stores) (worldsize : ℕ) (lo shape : List ℕ) (w r : ℕ) (p : BhView × ℕ) : List Task :=
  match p.1.base with
  | none => []
  | some b => commArrayData st r (lo, p.2) (chunkOf st ⟨worldsize, r⟩ lo shape p.2 p.1 b) w

/-- What the process that owns the output schedules for the array that received an operand. -/
def releaseTasks (st : Stores) (worldsize : ℕ) (lo shape : List ℕ) (w : ℕ) (p : BhView × ℕ) : List Task :=
  match p.1.base with
  | none => []
  | some b =>
    if rankAt worldsize lo p.1 b = w then []
    else release ⟨st.ofChunk lo p.2, b.type, packedNelem shape p.1.dims⟩

theorem groupTasks_cons (r : ℕ) (i : BhInstruction) (out : AryChunk) (rest : List (Option AryChunk)) :
    groupTasks st r i (some out :: rest) =
      let comm := (some out :: rest).zipIdx.flatMap fun p =>
        match p.1 with
        | none => []
        | some c => commArrayData st r (c.coord, p.2) c out.rank
      if r = out.rank then
        comm ++ .inst (localInst i (some out :: rest)) ::
          rangeOffset i (some out :: rest) r (out.coord.headD 0) ++ (temporaries (some out :: rest)).flatMap release
      else comm := rfl

theorem flatMap_release_temporaries (operands : List BhView) :
    (temporaries (chunksAt st ⟨worldsize, w⟩ operands lo shape)).flatMap release =
      operands.zipIdx.flatMap (releaseTasks st worldsize lo shape w) := by
  rw [temporaries, chunksAt, List.flatMap_map, List.flatMap_assoc]
  refine List.flatMap_congr fun p _ => ?_
  cases hb : p.1.base with
  | none => simp [releaseTasks, hb]
  | some b =>
    simp only [releaseTasks, hb, Option.map_some]
    by_cases hrank : rankAt worldsize lo p.1 b = w
    · rw [chunkOf_rankAt hrank, if_pos hrank]
      rfl
    · rw [chunkOf_of_ne hrank, if_neg hrank]
      simp [recvTmp]

/-- The tasks of a process for a box, operand by operand. -/
theorem groupTasks_eq {i : BhInstruction} {b : BhBase} (hop : bhOperands i.opcode ≠ 0) (hrange : i.opcode ≠ .range)
    (hb : i.operand0.base = some b) (hw : rankAt worldsize lo i.operand0 b = w) (r : ℕ) :
    groupTasks st r i (chunksAt st ⟨worldsize, r⟩ i.operands lo shape) =
      i.operands.zipIdx.flatMap (operandTasks st worldsize lo shape w r) ++
        if r = w then
          .inst (localInst i (chunksAt st ⟨worldsize, w⟩ i.operands lo shape)) ::
            i.operands.zipIdx.flatMap (releaseTasks st worldsize lo shape w)
        else [] := by
  -- the first chunk is that of the output
  obtain ⟨rest, hchunks⟩ : ∃ rest, chunksAt st ⟨worldsize, r⟩ i.operands lo shape =
      some (chunkOf st ⟨worldsize, r⟩ lo shape 0 i.operand0 b) :: rest := by
    rw [chunksAt, BhInstruction.operands_eq_cons hop]
    exact ⟨_, by rw [List.zipIdx_cons, List.map_cons, hb]; rfl⟩
  have hout : (chunkOf st ⟨worldsize, r⟩ lo shape 0 i.operand0 b).rank = w := by
    rw [rank_chunkOf, ← hw]
    rfl
  have hcomm : ((chunksAt st ⟨worldsize, r⟩ i.operands lo shape).zipIdx.flatMap fun p =>
      match p.1 with
      | none => []
      | some c => commArrayData st r (c.coord, p.2) c w) =
      i.operands.zipIdx.flatMap (operandTasks st worldsize lo shape w r) := by
    rw [chunksAt, zipIdx_map_zipIdx, List.flatMap_map]
    refine List.flatMap_congr fun p hp => ?_
    cases hpb : p.1.base with
    | none => simp [operandTasks, hpb]
    | some b' => simp only [operandTasks, hpb, Option.map_some, coord_chunkOf]
  rw [← hcomm]
  by_cases hr : r = w
  · subst hr
    rw [← flatMap_release_temporaries, hchunks, groupTasks_cons, hout, if_pos rfl, if_pos rfl, rangeOffset,
      if_neg fun h => hrange h.1]
    simp
  · rw [hchunks, groupTasks_cons, hout, if_neg hr, if_neg hr, List.append_nil]

/-- The part of a process in the transfer of one operand. -/
theorem map_operandTasks {r : ℕ} {p : BhView × ℕ}
    (hp : p.1.base.isSome → shape.length = p.1.dims.length ∧ ∀ d ∈ p.1.dims, 0 ≤ d.stride) :
    (operandTasks st worldsize lo shape w r p).map (Task.action I) =
      (operandEvents I st worldsize lo shape w p).flatMap (Event.project r) := by
  unfold operandTasks operandEvents
  cases hb : p.1.base with
  | none => rfl
  | some b =>
    obtain ⟨hlen, hds⟩ := hp (by rw [hb]; rfl)
    dsimp only
    by_cases hw : rankAt worldsize lo p.1 b = w
    · rw [if_pos hw, commArrayData, if_pos]
      · rfl
      · rw [rank_chunkOf]
        exact hw
    · rw [if_neg hw]
      by_cases hr : rankAt worldsize lo p.1 b = r
      · subst hr
        rw [chunkOf_rankAt rfl, commArrayData_localView hw hlen hds, List.map_append, map_release, List.map_cons,
          action_inst]
        simp [transfer, Event.project, Task.action]
      · rw [chunkOf_of_ne hr, commArrayData, if_neg hw]
        by_cases hrw : r = w
        · subst hrw
          simp [transfer, Event.project, Task.action, hr]
        · simp [transfer, Event.project, hr, Ne.symm hr, hrw, Ne.symm hrw]

theorem map_releaseTasks {r : ℕ} (p : BhView × ℕ) :
    (if r = w then releaseTasks st worldsize lo shape w p else []).map (Task.action I) =
      (releaseEvents I st worldsize lo shape w p).flatMap (Event.project r) := by
  unfold releaseTasks releaseEvents
  cases p.1.base with
  | none => simp
  | some b =>
    by_cases hw : rankAt worldsize lo p.1 b = w
    · simp [hw]
    · by_cases hr : r = w
      · subst hr
        simp [hw, map_release, Event.project]
      · simp [hw, hr, Ne.symm hr, Event.project]

/-- The tasks of a process for a box are its part of the box's events. -/
theorem map_groupTasks {i : BhInstruction} {b : BhBase} (hop : bhOperands i.opcode ≠ 0) (hrange : i.opcode ≠ .range)
    (hb : i.operand0.base = some b) (hw : rankAt worldsize lo i.operand0 b = w)
    (hpack : ∀ v ∈ i.operands, v.base.isSome → shape.length = v.dims.length ∧ ∀ d ∈ v.dims, 0 ≤ d.stride) (r : ℕ) :
    (groupTasks st r i (chunksAt st ⟨worldsize, r⟩ i.operands lo shape)).map (Task.action I) =
      (boxEvents I st worldsize lo shape w i).flatMap (Event.project r) := by
  rw [groupTasks_eq hop hrange hb hw, boxEvents, List.map_append, List.flatMap_append, List.flatMap_cons,
    List.map_flatMap, List.flatMap_assoc, List.flatMap_assoc]
  congr 1
  · refine List.flatMap_congr fun p hp => map_operandTasks (hpack p.1 (List.fst_mem_of_mem_zipIdx hp))
  · rw [← List.flatMap_congr fun p _ => map_releaseTasks p]
    by_cases hr : r = w
    · subst hr
      simp [action_inst, Event.project, List.map_flatMap]
    · simp [hr, Ne.symm hr, Event.project]

theorem proper_boxEvents {i : BhInstruction} : ∀ e ∈ boxEvents I st worldsize lo shape w i, e.Proper := by
  intro e he
  simp only [boxEvents, List.mem_append, List.mem_cons, List.mem_flatMap] at he
  rcases he with ⟨p, _, he⟩ | rfl | ⟨p, _, he⟩
  · unfold operandEvents at he
    split at he
    · cases he
    · split_ifs at he with hw
      · cases he
      · simp only [transfer, List.mem_cons, List.not_mem_nil, or_false] at he
        rcases he with rfl | rfl | rfl | rfl
        · trivial
        · exact hw
        · trivial
        · trivial
  · trivial
  · unfold releaseEvents at he
    split at he
    · cases he
    · split_ifs at he
      · cases he
      · simp only [List.mem_cons, List.not_mem_nil, or_false] at he
        rcases he with rfl | rfl
        · trivial
        · trivial

/-- A process that holds nothing of a box has no part in it. -/
theorem project_boxEvents_eq_nil {i : BhInstruction} {r : ℕ} (hr : r ≠ w)
    (hrank : ∀ v ∈ i.operands, ∀ b, v.base = some b → rankAt worldsize lo v b ≠ r) :
    (boxEvents I st worldsize lo shape w i).flatMap (Event.project r) = [] := by
  rw [boxEvents, List.flatMap_append, List.flatMap_cons, List.flatMap_assoc, List.flatMap_assoc,
    List.append_eq_nil_iff, List.append_eq_nil_iff]
  refine ⟨?_, ?_, ?_⟩
  · rw [List.flatMap_eq_nil_iff]
    intro p hp
    unfold operandEvents
    split
    · rfl
    · rename_i b hb
      have hne := hrank p.1 (List.fst_mem_of_mem_zipIdx hp) b hb
      split_ifs
      · rfl
      · simp [transfer, Event.project, hne, Ne.symm hr]
  · simp [Event.project, Ne.symm hr]
  · rw [List.flatMap_eq_nil_iff]
    intro p _
    unfold releaseEvents
    split
    · rfl
    · split_ifs
      · rfl
      · simp [Event.project, Ne.symm hr]

end Project

/-! ## No array is discarded twice -/

/-- The discards in a list are of different arrays, with addresses in `S`. -/
def Discards (S : ℕ → Prop) (l : List Task) : Prop :=
  (l.filter Task.isDiscard).Nodup ∧ ∀ t ∈ l.filter Task.isDiscard, ∃ b, t = onBase .discard b ∧ S b.addr

/-- `batch_schedule` drops nothing. -/
theorem foldl_batchSchedule {tasks l : List Task} (h : ((tasks ++ l).filter Task.isDiscard).Nodup) :
    l.foldl batchSchedule tasks = tasks ++ l := by
  induction l generalizing tasks with
  | nil => rw [List.foldl_nil, List.append_nil]
  | cons t l ih =>
    have hstep : batchSchedule tasks t = tasks ++ [t] := by
      unfold batchSchedule
      rw [if_neg]
      simp only [Bool.and_eq_true, decide_eq_true_eq, not_and]
      intro hd hmem
      rw [List.filter_append, List.filter_cons_of_pos hd, List.nodup_append] at h
      exact h.2.2 t (List.mem_filter.mpr ⟨hmem, hd⟩) t List.mem_cons_self rfl
    rw [List.foldl_cons, hstep, ih (by simpa using h), List.append_assoc]
    rfl

namespace Discards
variable {S S' : ℕ → Prop} {l l' : List Task}

theorem mono (h : Discards S l) (hS : ∀ a, S a → S' a) : Discards S' l := by
  refine ⟨h.1, fun t ht => ?_⟩
  obtain ⟨b, rfl, hb⟩ := h.2 t ht
  exact ⟨b, rfl, hS _ hb⟩

theorem nil : Discards S [] := ⟨List.nodup_nil, by simp⟩

theorem append (h : Discards S l) (h' : Discards S' l') (hd : ∀ a, S a → ¬ S' a) :
    Discards (fun a => S a ∨ S' a) (l ++ l') := by
  refine ⟨?_, ?_⟩
  · rw [List.filter_append, List.nodup_append]
    refine ⟨h.1, h'.1, ?_⟩
    rintro t ht _ ht' rfl
    obtain ⟨b, rfl, hb⟩ := h.2 t ht
    obtain ⟨b', heq, hb'⟩ := h'.2 _ ht'
    simp only [onBase, Task.inst.injEq, BhInstruction.mk.injEq, BhView.mk.injEq, Option.some.injEq] at heq
    obtain rfl := heq.2.1.1
    exact hd _ hb hb'
  · intro t ht
    rw [List.filter_append, List.mem_append] at ht
    rcases ht with ht | ht
    · obtain ⟨b, rfl, hb⟩ := h.2 t ht
      exact ⟨b, rfl, Or.inl hb⟩
    · obtain ⟨b, rfl, hb⟩ := h'.2 t ht
      exact ⟨b, rfl, Or.inr hb⟩

theorem flatMap {α : Type} {xs : List α} {f : α → List Task} {T : α → ℕ → Prop} (h : ∀ x ∈ xs, Discards (T x) (f x))
    (hd : xs.Pairwise fun x y => ∀ a, T x a → ¬ T y a) : Discards (fun a => ∃ x ∈ xs, T x a) (xs.flatMap f) := by
  induction xs with
  | nil => exact nil
  | cons x xs ih =>
    rw [List.forall_mem_cons] at h
    rw [List.pairwise_cons] at hd
    rw [List.flatMap_cons]
    have happ := h.1.append (ih h.2 hd.2) (fun a ha hex => by
      obtain ⟨y, hy, hya⟩ := hex
      exact hd.1 y hy a ha hya)
    refine happ.mono fun a ha => ?_
    rcases ha with ha | ⟨y, hy, hya⟩
    · exact ⟨x, List.mem_cons_self, ha⟩
    · exact ⟨y, List.mem_cons_of_mem x hy, hya⟩

theorem cons_of_not (h : Discards S l) {t : Task} (ht : t.isDiscard = false) : Discards S (t :: l) := by
  unfold Discards
  rw [List.filter_cons_of_neg (by simp [ht])]
  exact h

theorem release {b : BhBase} (hb : S b.addr) : Discards S (release b) := by
  have hfilter : (Cluster.release b).filter Task.isDiscard = [onBase .discard b] := rfl
  unfold Discards
  rw [hfilter]
  refine ⟨List.nodup_singleton _, fun t ht => ⟨b, List.mem_singleton.mp ht, hb⟩⟩

end Discards

section Schedule
variable {st : Stores} {worldsize : ℕ} {lo shape : List ℕ} {w : ℕ}

theorem discards_operandTasks {r : ℕ} {p : BhView × ℕ}
    (hp : p.1.base.isSome → shape.length = p.1.dims.length ∧ ∀ d ∈ p.1.dims, 0 ≤ d.stride) :
    Discards (· = st.ofBuffer lo p.2) (operandTasks st worldsize lo shape w r p) := by
  unfold operandTasks
  cases hb : p.1.base with
  | none => exact Discards.nil
  | some b =>
    obtain ⟨hlen, hds⟩ := hp (by rw [hb]; rfl)
    dsimp only
    by_cases hw : rankAt worldsize lo p.1 b = w
    · rw [commArrayData, if_pos (by rw [rank_chunkOf]; exact hw)]
      exact Discards.nil
    · by_cases hr : rankAt worldsize lo p.1 b = r
      · subst hr
        rw [chunkOf_rankAt rfl, commArrayData_localView hw hlen hds]
        apply Discards.cons_of_not _ rfl
        apply Discards.cons_of_not _ rfl
        exact Discards.release rfl
      · rw [chunkOf_of_ne hr, commArrayData, if_neg hw]
        split_ifs
        · exact Discards.nil.cons_of_not rfl
        · rename_i _ h
          exact absurd h.symm hr
        · exact Discards.nil

theorem discards_releaseTasks (p : BhView × ℕ) :
    Discards (· = st.ofChunk lo p.2) (releaseTasks st worldsize lo shape w p) := by
  unfold releaseTasks
  split
  · exact Discards.nil
  · split_ifs
    · exact Discards.nil
    · exact Discards.release rfl

theorem pairwise_zipIdx {α : Type} (l : List α) : l.zipIdx.Pairwise fun p q => p.2 ≠ q.2 := by
  rw [← List.pairwise_map, List.zipIdx_map_snd]
  exact List.nodup_range'

theorem discards_groupTasks {i : BhInstruction} {b : BhBase} (hop : bhOperands i.opcode ≠ 0)
    (hrange : i.opcode ≠ .range) (hdiscard : i.opcode ≠ .discard) (hb : i.operand0.base = some b)
    (hpack : ∀ v ∈ i.operands, v.base.isSome → shape.length = v.dims.length ∧ ∀ d ∈ v.dims, 0 ≤ d.stride) (r : ℕ) :
    Discards (fun a => ∃ k, a = st.ofBuffer lo k ∨ a = st.ofChunk lo k)
      (groupTasks st r i (chunksAt st ⟨worldsize, r⟩ i.operands lo shape)) := by
  rw [groupTasks_eq hop hrange hb rfl]
  have hoperand : ∀ p ∈ i.operands.zipIdx, Discards (· = st.ofBuffer lo p.2)
      (operandTasks st worldsize lo shape (rankAt worldsize lo i.operand0 b) r p) :=
    fun p hp => discards_operandTasks (hpack p.1 (List.fst_mem_of_mem_zipIdx hp))
  have hsend := Discards.flatMap hoperand
    ((pairwise_zipIdx i.operands).imp fun {p q} hne a ha hb => hne (st.buffer_inj _ _ _ _ (ha.symm.trans hb)).2)
  have hfree : ∀ p ∈ i.operands.zipIdx, Discards (· = st.ofChunk lo p.2)
      (releaseTasks st worldsize lo shape (rankAt worldsize lo i.operand0 b) p) :=
    fun p _ => discards_releaseTasks p
  have hrelease := Discards.flatMap hfree
    ((pairwise_zipIdx i.operands).imp fun {p q} hne a ha hb => hne (st.chunk_inj _ _ _ _ (ha.symm.trans hb)).2)
  split_ifs
  · have hinst : (Task.inst (localInst i (chunksAt st ⟨worldsize, rankAt worldsize lo i.operand0 b⟩ i.operands lo
        shape))).isDiscard = false := by simpa [Task.isDiscard, localInst] using hdiscard
    refine (hsend.append (hrelease.cons_of_not hinst) ?_).mono ?_
    · rintro a ⟨p, _, rfl⟩ ⟨q, _, hq⟩
      exact st.chunk_ne_buffer _ _ _ _ hq.symm
    · rintro a (⟨p, _, rfl⟩ | ⟨p, _, rfl⟩)
      · exact ⟨p.2, Or.inl rfl⟩
      · exact ⟨p.2, Or.inr rfl⟩
  · rw [List.append_nil]
    refine hsend.mono ?_
    rintro a ⟨p, _, rfl⟩
    exact ⟨p.2, Or.inl rfl⟩

/-- The arrays of different boxes are different. -/
theorem corner_apart {lo' : List ℕ} (hne : lo ≠ lo') {a : ℕ} (h : ∃ k, a = st.ofBuffer lo k ∨ a = st.ofChunk lo k)
    (h' : ∃ k, a = st.ofBuffer lo' k ∨ a = st.ofChunk lo' k) : False := by
  obtain ⟨k, rfl | rfl⟩ := h
  · obtain ⟨k', h | h⟩ := h'
    · exact hne (st.buffer_inj _ _ _ _ h).1
    · exact st.chunk_ne_buffer _ _ _ _ h.symm
  · obtain ⟨k', h | h⟩ := h'
    · exact st.chunk_ne_buffer _ _ _ _ h
    · exact hne (st.chunk_inj _ _ _ _ h).1

/-- The tasks that a process has after scheduling every box. -/
theorem foldl_batchSchedule_boxes {i : BhInstruction} {b : BhBase} {boxes : List (List ℕ × List ℕ)}
    (hop : bhOperands i.opcode ≠ 0) (hrange : i.opcode ≠ .range) (hdiscard : i.opcode ≠ .discard)
    (hb : i.operand0.base = some b)
    (hpack : ∀ p ∈ boxes, ∀ v ∈ i.operands, v.base.isSome →
      p.2.length = v.dims.length ∧ ∀ d ∈ v.dims, 0 ≤ d.stride)
    (hcorner : boxes.Pairwise fun p q => p.1 ≠ q.1) (r : ℕ) :
    (boxes.flatMap fun p => groupTasks st r i (chunksAt st ⟨worldsize, r⟩ i.operands p.1 p.2)).foldl
        batchSchedule [] =
      boxes.flatMap fun p => groupTasks st r i (chunksAt st ⟨worldsize, r⟩ i.operands p.1 p.2) := by
  have hgroup : ∀ p ∈ boxes, Discards (fun a => ∃ k, a = st.ofBuffer p.1 k ∨ a = st.ofChunk p.1 k)
      (groupTasks st r i (chunksAt st ⟨worldsize, r⟩ i.operands p.1 p.2)) :=
    fun p hp => discards_groupTasks hop hrange hdiscard hb (hpack p hp) r
  have hall := Discards.flatMap hgroup (hcorner.imp fun {p q} hne a ha ha' => corner_apart hne ha ha')
  exact foldl_batchSchedule hall.1

end Schedule

end Bohrium.Cluster
