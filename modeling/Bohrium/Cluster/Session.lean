import Bohrium.Cluster.Collective

/-! # Sessions on the cluster

What the bridge asks for, one thing after the other: its own work on the data at the master, arrays that are sent to
the processes, instructions, arrays that are collected again. The tasks of all processes wait in `task_store` until a
flush, and there they run in any order. -/
namespace Bohrium.Cluster
open Collectives Network
set_option autoImplicit false

section
variable {V : Type}

/-- The data of the global arrays, which the master has, the memories of the child engines, and the `task_store` of each
process. -/
structure Machine (V : Type) where
  master : Mem V
  mems : ℕ → Mem V
  taskStore : ℕ → List Task

/-- `batch_schedule`, of some tasks at each process. -/
def Machine.schedule (s : Machine V) (tasks : ℕ → List Task) : Machine V :=
  { s with taskStore := fun r => (tasks r).foldl batchSchedule (s.taskStore r) }

/-- `batch_flush` on all processes: they step in any order until none can. -/
def BatchFlush (I : Interp V) (worldsize : ℕ) (s s' : Machine V) : Prop :=
  ∃ l n, Runs l (cluster I worldsize s.taskStore s.mems) n ∧ (∀ r, n.step r = none) ∧
    s' = ⟨s.master, fun r => (n.state r).mem, fun _ => []⟩

/-- `comm_master2slaves`. -/
def CommMaster2slaves (I : Interp V) (mpi : Operations V) (st : Stores) (worldsize : ℕ) (b : BhBase) (s s' : Machine V) : Prop :=
  ∃ t, BatchFlush I worldsize s t ∧ if b.nelem = 0 then s' = t else
    ∃ mems, commScatter mpi st worldsize b t.master t.mems = some mems ∧ s' = { t with mems := mems }

/-- `comm_slaves2master`; the local arrays are synchronised before they are sent. -/
def CommSlaves2master (I : Interp V) (mpi : Operations V) (st : Stores) (worldsize : ℕ) (b : BhBase) (s s' : Machine V) : Prop :=
  ∃ t, BatchFlush I worldsize s t ∧ if b.nelem = 0 then s' = t else
    ∃ u master, BatchFlush I worldsize (t.schedule fun r => [onBase .sync (arrayGetLocal st ⟨worldsize, r⟩ b)]) u ∧
      commGather mpi st worldsize b u.mems u.master = some master ∧ s' = { u with master := master }

/-- What is asked for. An instruction comes with the temporary arrays that it will get. -/
inductive Command (V : Type)
  | bridge (f : Mem V → Mem V)
  | scatter (b : BhBase)
  | instr (st : Stores) (i : BhInstruction)
  | sync (b : BhBase)
  | flush

/-- `dispatch_array_data`, `execute_instr` and the end of `exec_execute`. -/
def Step (I : Interp V) (mpi : Operations V) (st : Stores) (worldsize : ℕ) : Command V → Machine V → Machine V → Prop
  | .bridge f, s, s' => s' = { s with master := f s.master }
  | .scatter b, s, s' => CommMaster2slaves I mpi st worldsize b s s'
  | .instr st' i, s, s' => ∃ (existing : ℕ → BhBase → Bool) (tasks : ℕ → List Task),
      (∀ r < worldsize, executeInstr st' ⟨worldsize, r⟩ (existing r) i = some (tasks r)) ∧ s' = s.schedule tasks
  | .sync b, s, s' => CommSlaves2master I mpi st worldsize b s s'
  | .flush, s, s' => BatchFlush I worldsize s s'

inductive Session (I : Interp V) (mpi : Operations V) (st : Stores) (worldsize : ℕ) : List (Command V) → Machine V → Machine V → Prop
  | nil (s : Machine V) : Session I mpi st worldsize [] s s
  | cons {c : Command V} {commands : List (Command V)} {s t u : Machine V} (h : Step I mpi st worldsize c s t)
      (hrest : Session I mpi st worldsize commands t u) : Session I mpi st worldsize (c :: commands) s u

/-! ## One machine -/

/-- The data that the bridge sees and the memory of one engine. -/
structure Single (V : Type) where
  master : Mem V
  mem : Mem V

def Single.step (I : Interp V) (s : Single V) : Command V → Single V
  | .bridge f => { s with master := f s.master }
  | .scatter b => { s with mem := copyBase b s.master s.mem }
  | .instr _ i => { s with mem := runWhole I i s.mem }
  | .sync b => { s with master := copyBase b s.mem s.master }
  | .flush => s

def Single.run (I : Interp V) (s : Single V) (commands : List (Command V)) : Single V := commands.foldl (Single.step I) s

/-- Arrays whose sizes are `int`s, and instructions that the cluster computes. -/
def Command.Right (st : Stores) (worldsize : ℕ) : Command V → Prop
  | .scatter b | .sync b => IntSized worldsize b
  | .instr st' i => st'.ofLocal = st.ofLocal ∧ (∀ id, i.opcode ≠ .ext id) ∧ i.opcode ∉ uncovered ∧ WellFormed i
  | .bridge _ | .flush => True

end

/-! ## Tasks that wait -/

section
variable {V : Type} {I : Interp V} {mpi : Operations V} {st : Stores} {worldsize : ℕ}

theorem scattered_congr {st' : Stores} (h : st'.ofLocal = st.ofLocal) {mems : ℕ → Mem V} {m : Mem V} :
    Scattered st' worldsize mems m ↔ Scattered st worldsize mems m := by
  unfold Scattered arrayGetLocal
  rw [h]

theorem Performs.congr {st' : Stores} (hst : st'.ofLocal = st.ofLocal) {tasks tasks' : ℕ → List Task}
    {events : List (Event ℕ (Node V) (Message V))} {F : Mem V → Mem V} (h : Performs I st' worldsize tasks events F)
    (heq : ∀ r < worldsize, tasks r = tasks' r) : Performs I st worldsize tasks' events F where
  project r := by
    rw [← h.project r]
    split
    · next hr => rw [heq r hr]
    · rfl
  proper := h.proper
  computes s m hs := by
    rw [← scattered_congr hst] at hs ⊢
    exact h.computes s m hs

/-- An array is discarded once only; leaving the other discards out changes nothing. -/
theorem thins_schedule (tasks store : List Task) :
    Thins ((store ++ tasks).map (Task.action I)) ((tasks.foldl batchSchedule store).map (Task.action I)) := by
  induction tasks generalizing store with
  | nil =>
    rw [List.append_nil]
    exact Thins.refl _
  | cons t tasks ih =>
    rw [List.foldl_cons]
    cases hagain : t.isDiscard && decide (t ∈ store) with
    | false =>
      have hkept : batchSchedule store t = store ++ [t] := by
        rw [batchSchedule, hagain]
        rfl
      rw [hkept, ← List.singleton_append, ← List.append_assoc]
      exact ih _
    | true =>
      have hdropped : batchSchedule store t = store := by
        rw [batchSchedule, hagain]
        rfl
      have hidle : t.action I = .act fun s => s := by
        have hdiscard := (Bool.and_eq_true_iff.mp hagain).1
        cases t with
        | inst i =>
          have hop : i.opcode = .discard := beq_iff_eq.mp hdiscard
          have hsystem : i.isSystem = true := by rw [BhInstruction.isSystem, hop]; rfl
          rw [Task.action]
          congr 1
          funext s
          rw [runWhole_system I hsystem]
        | send id rank view => cases hdiscard
        | recv id rank view => cases hdiscard
      have hrest := ih store
      rw [hdropped, List.map_append, List.map_cons, hidle]
      rw [List.map_append] at hrest
      exact hrest.insert

/-- The tasks of one more instruction. -/
theorem Performs.schedule {s : Machine V} {tasks : ℕ → List Task} {events events' : List (Event ℕ (Node V) (Message V))}
    {F G : Mem V → Mem V} (h : Performs I st worldsize s.taskStore events F) (h' : Performs I st worldsize tasks events' G) :
    ∃ events'', Performs I st worldsize (s.schedule tasks).taskStore events'' fun m => G (F m) := by
  have hproper : ∀ e ∈ events ++ events', e.Proper := fun e he => (List.mem_append.mp he).elim (h.proper e) (h'.proper e)
  have hthins : ∀ r, Thins ((events ++ events').flatMap (Event.project r))
      (if r < worldsize then ((s.schedule tasks).taskStore r).map (Task.action I) else []) := by
    intro r
    rw [List.flatMap_append, ← h.project r, ← h'.project r]
    split
    · rw [← List.map_append]
      exact thins_schedule (tasks r) (s.taskStore r)
    · exact Thins.nil
  obtain ⟨events'', hproper'', hproject, hrun⟩ := exists_thinned hproper hthins
  refine ⟨events'', fun r => (hproject r).symm, hproper'', fun s m hs => ?_⟩
  rw [hrun, runEvents_append]
  obtain ⟨hfirst, hreceipts⟩ := h.computes s m hs
  obtain ⟨hsecond, hreceipts'⟩ := h'.computes _ _ hfirst
  exact ⟨hsecond, fun r x hx => (hreceipts' r x hx).elim (hreceipts r x) Or.inr⟩

/-- A flush comes to an end, and there the local arrays are what the waiting tasks make of them. -/
theorem batchFlush_spec (hws : 1 ≤ worldsize) {s : Machine V} {events : List (Event ℕ (Node V) (Message V))} {F : Mem V → Mem V}
    {m : Mem V} (h : Performs I st worldsize s.taskStore events F) (hs : Scattered st worldsize s.mems m) :
    (∃ t, BatchFlush I worldsize s t) ∧ ∀ t, BatchFlush I worldsize s t →
      t.master = s.master ∧ t.taskStore = (fun _ => []) ∧ Scattered st worldsize t.mems (F m) := by
  have hstart : cluster I worldsize s.taskStore s.mems = start events fun r => ⟨s.mems r, []⟩ := Net.ext (funext h.project) rfl rfl
  constructor
  · obtain ⟨k, hk⟩ := runs_start h.proper fun r => (⟨s.mems r, []⟩ : Node V)
    rw [← hstart] at hk
    exact ⟨_, k, _, hk, step_start_nil _, rfl⟩
  · rintro t ⟨l, n, hn, hstuck, rfl⟩
    obtain ⟨k, hends⟩ := h.ends hws ((scattered_iff hws).mp hs)
    exact ⟨rfl, rfl, (scattered_iff hws).mpr ((hends l n hn).2.2 hstuck).2.2⟩

/-- The processes together have the memory of the one machine, once what waits is done. -/
def Tracks (I : Interp V) (st : Stores) (worldsize : ℕ) (s : Machine V) (t : Single V) : Prop :=
  s.master = t.master ∧ ∃ events F m, Scattered st worldsize s.mems m ∧ Performs I st worldsize s.taskStore events F ∧ t.mem = F m

theorem Tracks.flush (hws : 1 ≤ worldsize) {s : Machine V} {t : Single V} (h : Tracks I st worldsize s t) :
    (∃ u, BatchFlush I worldsize s u) ∧ ∀ u, BatchFlush I worldsize s u →
      u.master = t.master ∧ u.taskStore = (fun _ => []) ∧ Scattered st worldsize u.mems t.mem := by
  obtain ⟨hmaster, events, F, m, hs, hperf, hmem⟩ := h
  rw [← hmaster, hmem]
  exact batchFlush_spec hws hperf hs

end

end Bohrium.Cluster
