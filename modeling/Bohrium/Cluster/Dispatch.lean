import Bohrium.Core.Mirror

/-! # Which arrays the slaves know

The part of `vem/cluster/dispatch.cpp`, `exec.cpp` and `bh_vem_cluster_slave.cpp` that keeps track of
the arrays of a batch. The master notes an array as known when it packs it for the slaves and forgets
it when it executes its `BH_DISCARD`; a slave mirrors what it unpacks, translates all operands of the
batch, and forgets a mirror when it executes the translated `BH_DISCARD`. The address of a base is its
id; an assert that fails is `none`. -/
namespace Bohrium.Cluster
set_option autoImplicit false

/-! ## The master -/

/-- The message of `dispatch_bhir`: the instructions and the arrays that the slaves do not know. -/
structure ExecMsg where
  instrs : List BhInstruction
  darys : List NewArray
  deriving DecidableEq, Repr

/-- `dispatch_bhir`: `slave_known_arrays` afterwards, and the message. -/
def dispatchBhir (known : Finset ℕ) (batch : List BhInstruction) : Finset ℕ × ExecMsg :=
  let r := announce known batch
  (r.1, ⟨batch, r.2⟩)

/-- `dispatch_slave_known_remove` on the master. -/
def slaveKnownErase (known : Finset ℕ) (id : ℕ) : Option (Finset ℕ) :=
  if id ∈ known then some (known.erase id) else none

/-- What `execute_instr` on the master does to the known arrays. -/
def masterInstr (known : Finset ℕ) (i : BhInstruction) : Option (Finset ℕ) :=
  if i.opcode = .discard then i.operand0.base.bind fun b => slaveKnownErase known b.addr else some known

/-- `exec_execute` on the master. -/
def masterExecute (known : Finset ℕ) (batch : List BhInstruction) : Option (Finset ℕ) :=
  batch.foldlM masterInstr known

/-! ## A slave -/

/-- `dispatch_new_slave_array`. -/
def newSlaveArray (m : Mirror) (d : NewArray) : Option Mirror := m.insert d

/-- `dispatch_slave_known_remove` on a slave. -/
def slaveKnownRemove (m : Mirror) (slot : Slot) : Option Mirror := m.remove slot

/-- What `execute_instr` on a slave does to the mirrors. -/
def slaveInstr (m : Mirror) (i : LocalInstr) : Option Mirror :=
  if i.opcode = .discard then (i.operands.headD none).bind (slaveKnownRemove m) else some m

/-- `BH_CLUSTER_DISPATCH_EXEC`: the new arrays, the translation of the whole batch, and its
execution. -/
def slaveExec (m : Mirror) (msg : ExecMsg) : Option Mirror := do
  let m ← msg.darys.foldlM newSlaveArray m
  let instrs ← msg.instrs.mapM (convertInstr m)
  instrs.foldlM slaveInstr m

/-! ## The cluster -/

/-- The master, with the batch it has dispatched and not executed yet, and the slaves, each with the
messages it has not handled yet. -/
structure World where
  known : Finset ℕ
  running : Option (List BhInstruction)
  slaves : List (Mirror × List ExecMsg)

def World.start (nslaves : ℕ) : World := ⟨∅, none, List.replicate nslaves (Mirror.empty, [])⟩

/-- `bh_vem_cluster_execute` in its two parts, and a message that the slave at a position handles. -/
inductive Act
  | dispatch (batch : List BhInstruction)
  | execute
  | handle (slave : ℕ)

inductive Outcome
  | disabled
  | failed
  | ok (w : World)

def Outcome.ofOption : Option World → Outcome
  | none => .failed
  | some w => .ok w

def World.step (w : World) : Act → Outcome
  | .dispatch batch =>
    match w.running with
    | some _ => .disabled
    | none =>
      let r := dispatchBhir w.known batch
      .ok ⟨r.1, some batch, w.slaves.map fun s => (s.1, s.2 ++ [r.2])⟩
  | .execute =>
    match w.running with
    | none => .disabled
    | some batch =>
      .ofOption ((masterExecute w.known batch).map fun known => { w with known, running := none })
  | .handle k =>
    match w.slaves[k]? with
    | some (m, msg :: msgs) =>
      .ofOption ((slaveExec m msg).map fun m => { w with slaves := w.slaves.set k (m, msgs) })
    | _ => .disabled

/-! ## One batch -/

/-- The master can execute a batch whose arrays are known. -/
theorem masterExecute_isSome {known : Finset ℕ} {batch : List BhInstruction} (hl : LegalBatch batch)
    (hk : ∀ b ∈ basesOf batch, b.addr ∈ known) : ∃ known', masterExecute known batch = some known' := by
  induction batch generalizing known with
  | nil => exact ⟨known, rfl⟩
  | cons i batch ih =>
    have hnames := hl.names
    rw [List.forall_mem_cons] at hnames
    have hunused := hl.unused
    rw [List.pairwise_cons] at hunused
    have hrest := hl.tail
    unfold masterExecute
    rw [List.foldlM_cons]
    by_cases hd : i.opcode = .discard
    · obtain ⟨b, hb⟩ := Option.isSome_iff_exists.mp (hnames.1 hd)
      have hbmem : b.addr ∈ known := hk b (List.mem_flatMap.mpr ⟨i, List.mem_cons_self, by
        rw [operands_discard hd]
        simp [hb]⟩)
      have hstep : masterInstr known i = some (known.erase b.addr) := by
        simp [masterInstr, hd, hb, slaveKnownErase, hbmem]
      rw [hstep]
      refine ih hrest fun c hc => Finset.mem_erase.mpr ⟨?_, hk c (mem_basesOf_cons hc)⟩
      obtain ⟨j, hj, hcj⟩ := List.mem_flatMap.mp hc
      exact hunused.1 j hj hd b hb c hcj
    · have hstep : masterInstr known i = some known := if_neg hd
      rw [hstep]
      exact ih hrest fun c hc => hk c (mem_basesOf_cons hc)

/-- Master and slave execute a batch alike; the slave has translated it with the mirrors `m₀`. -/
theorem foldlM_slaveInstr {known known' : Finset ℕ} {m₀ m : Mirror} {batch : List BhInstruction} (h : Agree known m)
    (hl : LegalBatch batch)
    (hsame : ∀ i ∈ batch, i.opcode = .discard → ∀ b, i.operand0.base = some b →
      m.toSlot b.addr = m₀.toSlot b.addr)
    (hm : masterExecute known batch = some known') :
    ∃ m', (batch.map (localInstr m₀)).foldlM slaveInstr m = some m' ∧ Agree known' m' := by
  induction batch generalizing known m with
  | nil =>
    obtain rfl := Option.some.inj hm
    exact ⟨m, rfl, h⟩
  | cons i batch ih =>
    have hunused := hl.unused
    rw [List.pairwise_cons] at hunused
    have hrest := hl.tail
    rw [List.forall_mem_cons] at hsame
    unfold masterExecute at hm
    rw [List.foldlM_cons] at hm
    rw [List.map_cons, List.foldlM_cons]
    by_cases hd : i.opcode = .discard
    · obtain ⟨b, hb⟩ := Option.isSome_iff_exists.mp ((List.forall_mem_cons.mp hl.names).1 hd)
      -- the assert on the master holds, so the slave has a mirror
      have hbmem : b.addr ∈ known := by
        by_contra hnot
        have hstep : masterInstr known i = none := by
          simp [masterInstr, hd, hb, slaveKnownErase, hnot]
        rw [hstep] at hm
        cases hm
      have hstep : masterInstr known i = some (known.erase b.addr) := by
        simp [masterInstr, hd, hb, slaveKnownErase, hbmem]
      rw [hstep] at hm
      obtain ⟨slot, hslot⟩ := Option.isSome_iff_exists.mp ((h.keys b.addr).mp hbmem)
      obtain ⟨m₁, hremove, hvalid, hupdate, _⟩ := Mirror.remove_spec h.valid hslot
      have hslave : slaveInstr m (localInstr m₀ i) = some m₁ := by
        have hops : (localInstr m₀ i).operands = [some slot] := by
          rw [localInstr, operands_discard hd, List.map_singleton, hb, Option.bind_some, ← hsame.1 hd b hb, hslot]
        rw [slaveInstr, if_pos (show (localInstr m₀ i).opcode = .discard from hd), hops]
        exact hremove
      rw [hslave]
      refine ih ⟨fun id => ?_, hvalid⟩ hrest (fun j hj hdj c hc => ?_) hm
      · rw [Finset.mem_erase, h.keys, hupdate]
        by_cases hid : id = b.addr
        · simp [hid]
        · simp [hid]
      · rw [hupdate, Function.update_of_ne]
        · exact hsame.2 j hj hdj c hc
        · apply hunused.1 j hj hd b hb c
          rw [operands_discard hdj]
          simp [hc]
    · have hstep : masterInstr known i = some known := if_neg hd
      have hslave : slaveInstr m (localInstr m₀ i) = some m := if_neg hd
      rw [hstep] at hm
      rw [hslave]
      exact ih h hrest hsame.2 hm

/-- A slave that agrees with the master handles the message of a batch and agrees with it again. -/
theorem slaveExec_spec {known known' : Finset ℕ} {m : Mirror} {batch : List BhInstruction} (h : Agree known m)
    (hl : LegalBatch batch) (hm : masterExecute (dispatchBhir known batch).1 batch = some known') :
    ∃ m', slaveExec m (dispatchBhir known batch).2 = some m' ∧ Agree known' m' := by
  obtain ⟨hpacked, hbases, _⟩ := announce_spec known batch
  obtain ⟨m₁, hnew, hvalid, hkeys, _⟩ := foldlM_insert h.valid hpacked.nodup fun d hd => by
    have hnot := hpacked.fresh d hd
    rw [h.keys, Option.not_isSome_iff_eq_none] at hnot
    exact hnot
  have hagree : Agree (dispatchBhir known batch).1 m₁ := by
    refine ⟨fun id => ?_, hvalid⟩
    rw [hkeys, ← h.keys]
    exact hpacked.known id
  have hconvert := mapM_convertInstr fun b hb => (hagree.keys b.addr).mp (hbases b hb)
  obtain ⟨m', hexec, hagree'⟩ := foldlM_slaveInstr hagree hl (fun _ _ _ _ _ => rfl) hm
  refine ⟨m', ?_, hagree'⟩
  show ((announce known batch).2.foldlM Mirror.insert m).bind _ = _
  rw [hnew]
  show (batch.mapM (convertInstr m₁)).bind _ = _
  rw [hconvert]
  exact hexec

/-! ## Every run -/

/-- The messages of legal batches, from what the master knows before the first to what it knows after
the last. -/
inductive Messages : Finset ℕ → List ExecMsg → Finset ℕ → Prop
  | nil (known : Finset ℕ) : Messages known [] known
  | cons {known known' known'' : Finset ℕ} {batch : List BhInstruction} {msgs : List ExecMsg} (hl : LegalBatch batch)
      (hm : masterExecute (dispatchBhir known batch).1 batch = some known') (hrest : Messages known' msgs known'') :
      Messages known ((dispatchBhir known batch).2 :: msgs) known''

theorem Messages.snoc {known known' known'' : Finset ℕ} {batch : List BhInstruction} {msgs : List ExecMsg}
    (h : Messages known msgs known') (hl : LegalBatch batch)
    (hm : masterExecute (dispatchBhir known' batch).1 batch = some known'') :
    Messages known (msgs ++ [(dispatchBhir known' batch).2]) known'' := by
  induction h with
  | nil known => exact Messages.cons hl hm (Messages.nil _)
  | cons hl' hm' _ ih => exact Messages.cons hl' hm' (ih hm)

/-- What the master will know when it has executed its batch. -/
def World.Target (w : World) (target : Finset ℕ) : Prop :=
  match w.running with
  | none => target = w.known
  | some batch => masterExecute w.known batch = some target

/-- Every slave agrees with the master as of the messages it has handled. -/
def World.InStep (w : World) : Prop :=
  ∃ target, w.Target target ∧ ∀ s ∈ w.slaves, ∃ known, Agree known s.1 ∧ Messages known s.2 target

/-- The batches that are dispatched are legal. -/
def Act.Legal (a : Act) : Prop := ∀ batch, a = .dispatch batch → LegalBatch batch

theorem World.InStep.step {w : World} (h : w.InStep) {a : Act} (ha : a.Legal) :
    w.step a ≠ .failed ∧ ∀ w', w.step a = .ok w' → w'.InStep := by
  obtain ⟨target, htarget, hslaves⟩ := h
  cases a with
  | dispatch batch =>
    unfold World.step
    cases hr : w.running with
    | some _ => exact ⟨nofun, nofun⟩
    | none =>
      refine ⟨nofun, ?_⟩
      rintro _ ⟨⟩
      rw [World.Target, hr] at htarget
      subst htarget
      have hl := ha batch rfl
      obtain ⟨known', hm⟩ := masterExecute_isSome hl (announce_spec w.known batch).2.1
      refine ⟨known', hm, fun s hs => ?_⟩
      obtain ⟨s', hs', rfl⟩ := List.mem_map.mp hs
      obtain ⟨known, hagree, hmsgs⟩ := hslaves s' hs'
      exact ⟨known, hagree, hmsgs.snoc hl hm⟩
  | execute =>
    unfold World.step
    cases hr : w.running with
    | none => exact ⟨nofun, nofun⟩
    | some batch =>
      rw [World.Target, hr] at htarget
      dsimp only
      rw [htarget]
      refine ⟨nofun, ?_⟩
      rintro _ ⟨⟩
      exact ⟨target, rfl, hslaves⟩
  | handle k =>
    cases hk : w.slaves[k]? with
    | none =>
      simp only [World.step, hk]
      exact ⟨nofun, nofun⟩
    | some s =>
      obtain ⟨m, msgs⟩ := s
      obtain ⟨known, hagree, hmsgs⟩ := hslaves _ (List.mem_of_getElem? hk)
      dsimp only at hagree hmsgs
      cases hmsgs with
      | nil =>
        simp only [World.step, hk]
        exact ⟨nofun, nofun⟩
      | cons hl hm hrest =>
        obtain ⟨m', hexec, hagree'⟩ := slaveExec_spec hagree hl hm
        simp only [World.step, hk, hexec, Option.map_some, Outcome.ofOption]
        refine ⟨nofun, ?_⟩
        rintro _ ⟨⟩
        refine ⟨target, htarget, fun s hs => ?_⟩
        rcases List.mem_or_eq_of_mem_set hs with hs | rfl
        · exact hslaves s hs
        · exact ⟨_, hagree', hrest⟩

/-- The states of runs in which all batches are legal. -/
inductive World.Reachable (nslaves : ℕ) : World → Prop
  | start : Reachable nslaves (World.start nslaves)
  | step {w w' : World} {a : Act} (h : Reachable nslaves w) (ha : a.Legal) (hw : w.step a = .ok w') :
      Reachable nslaves w'

theorem World.Reachable.inStep {nslaves : ℕ} {w : World} (h : w.Reachable nslaves) : w.InStep := by
  induction h with
  | start =>
    refine ⟨∅, rfl, fun s hs => ?_⟩
    rw [List.eq_of_mem_replicate hs]
    exact ⟨∅, ⟨by simp [Mirror.empty], Mirror.valid_empty⟩, Messages.nil ∅⟩
  | step _ ha hw ih => exact (ih.step ha).2 _ hw

/-- No assert fails in any run of legal batches, and after every batch each slave mirrors exactly the
arrays that the master notes as known, by slots in use and by maps that are inverse to each other. -/
theorem master_slaves_agree (nslaves : ℕ) (w : World) (h : w.Reachable nslaves) :
    (∀ a : Act, a.Legal → w.step a ≠ .failed) ∧
      (w.running = none → ∀ s ∈ w.slaves, s.2 = [] →
        (∀ id, id ∈ w.known ↔ (s.1.toSlot id).isSome) ∧
        (∀ id slot, s.1.toSlot id = some slot ↔ s.1.toRemote slot = some id) ∧
        ∀ slot id, s.1.toRemote slot = some id → s.1.store.InUse slot) := by
  refine ⟨fun a ha => (h.inStep.step ha).1, fun hrunning s hs hempty => ?_⟩
  obtain ⟨target, htarget, hslaves⟩ := h.inStep
  rw [World.Target, hrunning] at htarget
  subst htarget
  obtain ⟨known, hagree, hmsgs⟩ := hslaves s hs
  rw [hempty] at hmsgs
  cases hmsgs
  exact ⟨hagree.keys, hagree.valid.inverse, hagree.valid.inUse⟩

/-- An array is read, freed and discarded; another one stays. -/
def readThenDiscard : List BhInstruction :=
  let a : BhView := ⟨some ⟨0, .int64, 4⟩, 0, [⟨4, 1⟩]⟩
  let b : BhView := ⟨some ⟨1, .int64, 4⟩, 0, [⟨4, 1⟩]⟩
  [⟨.identity, b, a, a, .int .int64 0⟩, ⟨.free, a, a, a, .int .int64 0⟩, ⟨.discard, a, a, a, .int .int64 0⟩]

/-- The address of the discarded array is used again, for an array of another type. -/
def reuseAddress : List BhInstruction :=
  let a : BhView := ⟨some ⟨0, .uint8, 9⟩, 0, [⟨4, 1⟩]⟩
  let b : BhView := ⟨some ⟨1, .int64, 4⟩, 0, [⟨4, 1⟩]⟩
  [⟨.identity, a, b, b, .int .int64 0⟩]

theorem legal_readThenDiscard : LegalBatch readThenDiscard := by
  refine ⟨by decide, ?_⟩
  simp [readThenDiscard]

theorem legal_reuseAddress : LegalBatch reuseAddress := ⟨by decide, List.pairwise_singleton _ _⟩

/-- The second slave handles the first batch when the master is done with the second. -/
theorem master_slaves_agree_reuse : ∃ w : World, w.Reachable 2 ∧ w.running = none ∧ w.known = {0, 1} ∧
    ∀ s ∈ w.slaves, s.2 = [] ∧ ∀ id, id ∈ w.known ↔ (s.1.toSlot id).isSome := by
  have h1 : Act.Legal (.dispatch readThenDiscard) := fun _ h => by cases h; exact legal_readThenDiscard
  have h2 : Act.Legal (.dispatch reuseAddress) := fun _ h => by cases h; exact legal_reuseAddress
  have hrun := (((((((World.Reachable.start : World.Reachable 2 _).step h1 rfl).step (a := .execute) nofun rfl).step
    (a := .handle 0) nofun rfl).step h2 rfl).step (a := .execute) nofun rfl).step (a := .handle 1) nofun rfl).step
    (a := .handle 1) nofun rfl
  have hlast := hrun.step (a := .handle 0) nofun rfl
  refine ⟨_, hlast, rfl, by decide, fun s hs => ?_⟩
  have hempty : s.2 = [] := by
    rcases List.mem_cons.mp hs with rfl | hs
    · rfl
    · rw [List.mem_singleton.mp hs]
  exact ⟨hempty, ((master_slaves_agree 2 _ hlast).2 rfl s hs hempty).1⟩

end Bohrium.Cluster
