import Bohrium.Library.Parallel

/-! # The thread runner

`ThreadRunner`: a caller and a fixed number of threads meet at a barrier before and after each action. A thread that
waits too long for work takes its signal back and looks again. -/
namespace Bohrium.NumCil.Threads
open Jobs
set_option autoImplicit false

variable {M : Type}

/-! ## The protocol -/

/-- `System.Threading.Barrier`: the number of phases that have ended, and the signals in this one. -/
structure Barrier where
  phase : ℕ
  arrived : ℕ
  deriving DecidableEq, Repr

/-- The last participant ends the phase. -/
def Barrier.signal (participants : ℕ) (b : Barrier) : Barrier :=
  if b.arrived + 1 = participants then ⟨b.phase + 1, 0⟩ else ⟨b.phase, b.arrived + 1⟩

/-- A wait that is given up in its phase. -/
def Barrier.withdraw (b : Barrier) : Barrier := ⟨b.phase, b.arrived - 1⟩

/-- Where `RunParallel` stands. -/
inductive Caller
  | idle
  | atStart
  | inStart (phase : ℕ)
  | atFinish
  | inFinish (phase : ℕ)
  | atClear
  deriving DecidableEq, Repr

/-- Where `ThreadExecute` stands; an invocation is what is left of it. -/
inductive Worker (M : Type)
  | atStart
  | inStart (phase : ℕ)
  | woken
  | running (steps : List (M → M))
  | atFinish
  | inFinish (phase : ℕ)

/-- `m_action`, the two barriers, the threads and the memory, and the calls that were made. -/
structure Runner (M : Type) where
  action : Option (Job M)
  start : Barrier
  finish : Barrier
  caller : Caller
  workers : ℕ → Worker M
  mem : M
  calls : List (Job M)

def Runner.new (mem : M) : Runner M := ⟨none, ⟨0, 0⟩, ⟨0, 0⟩, .idle, fun _ => .atStart, mem, []⟩

/-- Who moves. -/
inductive Act (M : Type)
  | call (job : Job M)
  | caller
  | worker (i : ℕ)
  | timeout (i : ℕ)

/-- The next step of `RunParallel`, after the call. -/
def callerStep (count : ℕ) (s : Runner M) : Option (Runner M) :=
  match s.caller with
  | .idle => none
  | .atStart => some { s with start := s.start.signal (count + 1), caller := .inStart s.start.phase }
  | .inStart phase => if phase < s.start.phase then some { s with caller := .atFinish } else none
  | .atFinish => some { s with finish := s.finish.signal (count + 1), caller := .inFinish s.finish.phase }
  | .inFinish phase => if phase < s.finish.phase then some { s with caller := .atClear } else none
  | .atClear => some { s with action := none, caller := .idle }

def Runner.move (s : Runner M) (i : ℕ) (w : Worker M) : Runner M := { s with workers := Function.update s.workers i w }

/-- The next step of `ThreadExecute`. A thread that is woken without an action looks for work again. -/
def workerStep (count : ℕ) (s : Runner M) (i : ℕ) : Option (Runner M) :=
  match s.workers i with
  | .atStart => some { s.move i (.inStart s.start.phase) with start := s.start.signal (count + 1) }
  | .inStart phase => if phase < s.start.phase then some (s.move i .woken) else none
  | .woken => some (s.move i (s.action.elim .atStart fun job => .running (job i s.mem)))
  | .running [] => some (s.move i .atFinish)
  | .running (f :: steps) => some { s.move i (.running steps) with mem := f s.mem }
  | .atFinish => some { s.move i (.inFinish s.finish.phase) with finish := s.finish.signal (count + 1) }
  | .inFinish phase => if phase < s.finish.phase then some (s.move i .atStart) else none

/-- The sixty seconds are over. -/
def timeoutStep (s : Runner M) (i : ℕ) : Option (Runner M) :=
  match s.workers i with
  | .inStart phase => if phase = s.start.phase then some { s.move i .atStart with start := s.start.withdraw } else none
  | _ => none

def step (count : ℕ) (s : Runner M) : Act M → Option (Runner M)
  | .call job =>
    if s.caller = .idle then some { s with action := some job, caller := .atStart, calls := s.calls ++ [job] } else none
  | .caller => callerStep count s
  | .worker i => if i < count then workerStep count s i else none
  | .timeout i => if i < count then timeoutStep s i else none

/-! ## The invariant -/

def Worker.waitsStart (phase : ℕ) : Worker M → Bool
  | .inStart p => p = phase
  | _ => false

def Worker.waitsFinish (phase : ℕ) : Worker M → Bool
  | .inFinish p => p = phase
  | _ => false

/-- The memory after some calls, each with its threads one after the other. -/
def after (count : ℕ) (mem : M) (calls : List (Job M)) : M := calls.foldl (fun m job => sequential count job m) mem

/-- The action is the one of the call after the first `n`. -/
def Called (n : ℕ) (action : Option (Job M)) (calls : List (Job M)) : Prop :=
  calls.length = n + 1 ∧ action.isSome ∧ action = calls[n]?

/-- The caller between two actions, `n` of them done. -/
def RestCaller (n : ℕ) (action : Option (Job M)) (calls : List (Job M)) : Caller → Prop
  | .idle => calls.length = n
  | .atStart => Called n action calls
  | .inStart phase => phase = n ∧ Called n action calls
  | .atFinish => False
  | .inFinish phase => phase < n ∧ calls.length = n
  | .atClear => calls.length = n

def RestWorker (n : ℕ) : Worker M → Prop
  | .atStart => True
  | .inStart phase => phase = n
  | .inFinish phase => phase < n
  | _ => False

/-- No action is under way. -/
structure Rest (count : ℕ) (mem : M) (s : Runner M) : Prop where
  phases : s.start.phase = s.finish.phase
  caller : RestCaller s.finish.phase s.action s.calls s.caller
  workers : ∀ i < count, RestWorker s.finish.phase (s.workers i)
  arrived : s.start.arrived = tally (fun i => (s.workers i).waitsStart s.finish.phase) count +
    if s.caller = .inStart s.finish.phase then 1 else 0
  room : s.start.arrived < count + 1
  none : s.finish.arrived = 0
  mem_eq : s.mem = after count mem (s.calls.take s.finish.phase)

/-- The caller while the action `n` is under way. -/
def BusyCaller (n : ℕ) : Caller → Prop
  | .inStart phase => phase = n
  | .atFinish => True
  | .inFinish phase => phase = n
  | _ => False

/-- What a thread has done of its program. -/
def BusyWorker (n : ℕ) (program done : List (M → M)) : Worker M → Prop
  | .atStart => False
  | .inStart phase => phase = n ∧ done = []
  | .woken => done = []
  | .running steps => program = done ++ steps
  | .atFinish => done = program
  | .inFinish phase => phase = n ∧ done = program

/-- An action is under way. -/
structure Busy (count : ℕ) (mem : M) (s : Runner M) : Prop where
  phases : s.start.phase = s.finish.phase + 1
  caller : BusyCaller s.finish.phase s.caller
  called : Called s.finish.phase s.action s.calls
  workers : ∀ job ∈ s.action, ∃ done : ℕ → List (M → M),
    (∀ i < count, BusyWorker s.finish.phase (job i (after count mem (s.calls.take s.finish.phase))) (done i) (s.workers i)) ∧
      s.mem = inOrder done count (after count mem (s.calls.take s.finish.phase))
  arrived : s.finish.arrived = tally (fun i => (s.workers i).waitsFinish s.finish.phase) count +
    if s.caller = .inFinish s.finish.phase then 1 else 0
  room : s.finish.arrived < count + 1
  none : s.start.arrived = 0

theorem inOrder_nil (count : ℕ) (m : M) : inOrder (fun _ => []) count m = m := by
  induction count with
  | zero => rfl
  | succ count ih =>
    rw [inOrder_succ, ih]
    rfl

theorem rest_new (count : ℕ) (mem : M) : Rest count mem (Runner.new mem) where
  phases := rfl
  caller := rfl
  workers _ _ := trivial
  arrived := by
    have hnone : tally (fun i => ((Runner.new mem).workers i).waitsStart (Runner.new mem).finish.phase) count = 0 :=
      tally_eq_zero.mpr fun _ _ => rfl
    rw [hnone, if_neg (fun h => (nomatch h))]
    rfl
  room := Nat.succ_pos count
  none := rfl
  mem_eq := rfl

section
variable {count : ℕ} {mem : M} {s s' : Runner M}

/-- What holds of every thread holds after one has moved, if it holds of the new place. -/
theorem forall_move {P : ℕ → Worker M → Prop} (h : ∀ j < count, P j (s.workers j)) {i : ℕ} {w : Worker M} (hw : P i w) :
    ∀ j < count, P j ((s.move i w).workers j) := by
  intro j hj
  obtain rfl | hne := eq_or_ne j i
  · show P j (Function.update s.workers j w j)
    rw [Function.update_self]
    exact hw
  · show P j (Function.update s.workers i w j)
    rw [Function.update_of_ne hne]
    exact h j hj

/-- The last one has come to the start. -/
theorem busy_of_full (hphases : s.start.phase = s.finish.phase + 1) (hstart : s.start.arrived = 0) (hfinish : s.finish.arrived = 0)
    (hcaller : s.caller = .inStart s.finish.phase) (hcalled : Called s.finish.phase s.action s.calls)
    (hworkers : ∀ i < count, (s.workers i).waitsStart s.finish.phase = true)
    (hmem : s.mem = after count mem (s.calls.take s.finish.phase)) : Busy count mem s := by
  have hplace : ∀ i < count, s.workers i = .inStart s.finish.phase := by
    intro i hi
    have hwaits := hworkers i hi
    cases hw : s.workers i with
    | inStart phase =>
      rw [hw, Worker.waitsStart, decide_eq_true_eq] at hwaits
      rw [hwaits]
    | atStart => rw [hw] at hwaits; cases hwaits
    | woken => rw [hw] at hwaits; cases hwaits
    | running steps => rw [hw] at hwaits; cases hwaits
    | atFinish => rw [hw] at hwaits; cases hwaits
    | inFinish phase => rw [hw] at hwaits; cases hwaits
  refine ⟨hphases, by rw [hcaller]; rfl, hcalled, fun job _ => ⟨fun _ => [], fun i hi => ?_, ?_⟩, ?_, by omega, hstart⟩
  · rw [hplace i hi]
    exact ⟨rfl, rfl⟩
  · rw [inOrder_nil, hmem]
  · have hnone : tally (fun i => (s.workers i).waitsFinish s.finish.phase) count = 0 :=
      tally_eq_zero.mpr fun i hi => by rw [hplace i hi]; rfl
    rw [hfinish, hnone, hcaller, if_neg (fun h => (nomatch h))]

/-- The last one has come to the finish. -/
theorem rest_of_full {n : ℕ} (hstart : s.start.phase = n + 1) (hfinish : s.finish.phase = n + 1) (hstart' : s.start.arrived = 0)
    (hfinish' : s.finish.arrived = 0) (hcaller : s.caller = .inFinish n) (hcalls : s.calls.length = n + 1)
    (hworkers : ∀ i < count, (s.workers i).waitsFinish n = true) (hmem : s.mem = after count mem (s.calls.take (n + 1))) :
    Rest count mem s := by
  have hplace : ∀ i < count, s.workers i = .inFinish n := by
    intro i hi
    have hwaits := hworkers i hi
    cases hw : s.workers i with
    | inFinish phase =>
      rw [hw, Worker.waitsFinish, decide_eq_true_eq] at hwaits
      rw [hwaits]
    | atStart => rw [hw] at hwaits; cases hwaits
    | woken => rw [hw] at hwaits; cases hwaits
    | running steps => rw [hw] at hwaits; cases hwaits
    | atFinish => rw [hw] at hwaits; cases hwaits
    | inStart phase => rw [hw] at hwaits; cases hwaits
  refine ⟨by rw [hstart, hfinish], ?_, fun i hi => ?_, ?_, by omega, hfinish', by rw [hfinish, hmem]⟩
  · rw [hcaller, hfinish]
    exact ⟨Nat.lt_succ_self n, hcalls⟩
  · rw [hplace i hi, hfinish]
    exact Nat.lt_succ_self n
  · have hnone : tally (fun i => (s.workers i).waitsStart s.finish.phase) count = 0 :=
      tally_eq_zero.mpr fun i hi => by rw [hplace i hi]; rfl
    rw [hstart', hnone, hcaller, if_neg (fun h => (nomatch h))]

/-- The call of an action. -/
theorem Rest.call (h : Rest count mem s) (job : Job M) (hidle : s.caller = .idle) :
    Rest count mem { s with action := some job, caller := .atStart, calls := s.calls ++ [job] } := by
  have hcalls := h.caller
  rw [hidle] at hcalls
  have hcalls : s.calls.length = s.finish.phase := hcalls
  have harrived := h.arrived
  rw [hidle, if_neg (fun h => (nomatch h))] at harrived
  refine ⟨h.phases, ⟨?_, rfl, ?_⟩, h.workers, ?_, h.room, h.none, ?_⟩
  · show (s.calls ++ [job]).length = s.finish.phase + 1
    rw [List.length_append, hcalls, List.length_singleton]
  · show some job = (s.calls ++ [job])[s.finish.phase]?
    rw [← hcalls, List.getElem?_concat_length]
  · rw [if_neg (fun h => (nomatch h))]
    exact harrived
  · show s.mem = after count mem ((s.calls ++ [job]).take s.finish.phase)
    have hmem := h.mem_eq
    rw [← hcalls, List.take_length] at hmem
    rw [← hcalls, List.take_left]
    exact hmem

theorem rest_callerStep (h : Rest count mem s) (hstep : callerStep count s = some s') : Rest count mem s' ∨ Busy count mem s' := by
  have hcaller := h.caller
  have harrived := h.arrived
  rw [callerStep] at hstep
  cases hc : s.caller with
  | idle =>
    rw [hc] at hstep
    cases hstep
  | atStart =>
    rw [hc] at hstep hcaller harrived
    obtain rfl := Option.some.inj hstep
    rw [if_neg (fun h => (nomatch h)), Nat.add_zero] at harrived
    by_cases hfull : s.start.arrived + 1 = count + 1
    · have hsignal : s.start.signal (count + 1) = ⟨s.start.phase + 1, 0⟩ := if_pos hfull
      rw [hsignal]
      right
      refine busy_of_full ?_ rfl h.none ?_ hcaller ?_ h.mem_eq
      · show s.start.phase + 1 = s.finish.phase + 1
        rw [h.phases]
      · show Caller.inStart s.start.phase = _
        rw [h.phases]
      · apply tally_eq_self.mp
        show tally (fun i => (s.workers i).waitsStart s.finish.phase) count = count
        omega
    · have hsignal : s.start.signal (count + 1) = ⟨s.start.phase, s.start.arrived + 1⟩ := if_neg hfull
      rw [hsignal]
      left
      have hroom := h.room
      refine ⟨h.phases, ⟨h.phases, hcaller⟩, h.workers, ?_, ?_, h.none, h.mem_eq⟩
      · show s.start.arrived + 1 = tally _ count + if Caller.inStart s.start.phase = .inStart s.finish.phase then 1 else 0
        rw [if_pos (by rw [h.phases]), harrived]
      · show s.start.arrived + 1 < count + 1
        omega
  | inStart phase =>
    rw [hc] at hstep hcaller
    dsimp only at hstep
    rw [hcaller.1, h.phases, if_neg (Nat.lt_irrefl _)] at hstep
    cases hstep
  | atFinish =>
    rw [hc] at hcaller
    exact hcaller.elim
  | inFinish phase =>
    rw [hc] at hstep hcaller harrived
    rw [if_neg (fun h => (nomatch h))] at harrived
    dsimp only at hstep
    rw [if_pos hcaller.1] at hstep
    obtain rfl := Option.some.inj hstep
    refine Or.inl ⟨h.phases, hcaller.2, h.workers, ?_, h.room, h.none, h.mem_eq⟩
    rw [if_neg (fun h => (nomatch h))]
    exact harrived
  | atClear =>
    rw [hc] at hstep hcaller harrived
    rw [if_neg (fun h => (nomatch h))] at harrived
    obtain rfl := Option.some.inj hstep
    refine Or.inl ⟨h.phases, hcaller, h.workers, ?_, h.room, h.none, h.mem_eq⟩
    rw [if_neg (fun h => (nomatch h))]
    exact harrived

theorem rest_workerStep (h : Rest count mem s) {i : ℕ} (hi : i < count) (hstep : workerStep count s i = some s') :
    Rest count mem s' ∨ Busy count mem s' := by
  have hworker := h.workers i hi
  have harrived := h.arrived
  have hroom := h.room
  rw [workerStep] at hstep
  cases hw : s.workers i with
  | atStart =>
    rw [hw] at hstep
    obtain rfl := Option.some.inj hstep
    have htally := @tally_update _ s.workers (Worker.waitsStart s.finish.phase) count i hi (.inStart s.start.phase)
    rw [hw, if_neg (fun h => (nomatch h)), if_pos (by rw [Worker.waitsStart, h.phases]; exact decide_eq_true rfl), Nat.add_zero] at htally
    by_cases hfull : s.start.arrived + 1 = count + 1
    · have hsignal : s.start.signal (count + 1) = ⟨s.start.phase + 1, 0⟩ := if_pos hfull
      rw [hsignal]
      right
      -- the one that moves was not there yet, so the caller is
      have hle := tally_le (fun j => (Function.update s.workers i (.inStart s.start.phase) j).waitsStart s.finish.phase) count
      have hcaller : s.caller = .inStart s.finish.phase := by
        by_contra hne
        rw [if_neg hne] at harrived
        omega
      have hcalled := h.caller
      rw [hcaller] at hcalled
      refine busy_of_full ?_ rfl h.none hcaller hcalled.2 ?_ h.mem_eq
      · show s.start.phase + 1 = s.finish.phase + 1
        rw [h.phases]
      · apply tally_eq_self.mp
        rw [if_pos hcaller] at harrived
        show tally (fun j => (Function.update s.workers i (.inStart s.start.phase) j).waitsStart s.finish.phase) count = count
        omega
    · have hsignal : s.start.signal (count + 1) = ⟨s.start.phase, s.start.arrived + 1⟩ := if_neg hfull
      rw [hsignal]
      left
      refine ⟨h.phases, h.caller, ?_, ?_, ?_, h.none, h.mem_eq⟩
      · exact forall_move (P := fun _ => RestWorker s.finish.phase) h.workers h.phases
      · show s.start.arrived + 1 = tally (fun j => (Function.update s.workers i (.inStart s.start.phase) j).waitsStart s.finish.phase) count +
          if s.caller = .inStart s.finish.phase then 1 else 0
        omega
      · show s.start.arrived + 1 < count + 1
        omega
  | inStart phase =>
    rw [hw] at hstep hworker
    have hphase : phase = s.finish.phase := hworker
    dsimp only at hstep
    rw [hphase, h.phases, if_neg (Nat.lt_irrefl _)] at hstep
    cases hstep
  | woken =>
    rw [hw] at hworker
    exact hworker.elim
  | running steps =>
    rw [hw] at hworker
    exact hworker.elim
  | atFinish =>
    rw [hw] at hworker
    exact hworker.elim
  | inFinish phase =>
    rw [hw] at hstep hworker
    have hphase : phase < s.finish.phase := hworker
    dsimp only at hstep
    rw [if_pos hphase] at hstep
    obtain rfl := Option.some.inj hstep
    have htally := @tally_update _ s.workers (Worker.waitsStart s.finish.phase) count i hi .atStart
    rw [hw, if_neg (fun h => (nomatch h)), if_neg (fun h => (nomatch h)), Nat.add_zero, Nat.add_zero] at htally
    left
    refine ⟨h.phases, h.caller, ?_, ?_, h.room, h.none, h.mem_eq⟩
    · exact forall_move (P := fun _ => RestWorker s.finish.phase) h.workers trivial
    · show s.start.arrived = tally (fun j => (Function.update s.workers i .atStart j).waitsStart s.finish.phase) count +
        if s.caller = .inStart s.finish.phase then 1 else 0
      rw [htally]
      exact harrived

theorem rest_timeoutStep (h : Rest count mem s) {i : ℕ} (hi : i < count) (hstep : timeoutStep s i = some s') : Rest count mem s' := by
  have harrived := h.arrived
  have hroom := h.room
  rw [timeoutStep] at hstep
  cases hw : s.workers i with
  | inStart phase =>
    rw [hw] at hstep
    dsimp only at hstep
    split at hstep
    · next hphase =>
      obtain rfl := Option.some.inj hstep
      have htally := @tally_update _ s.workers (Worker.waitsStart s.finish.phase) count i hi .atStart
      rw [hw, if_pos (by rw [Worker.waitsStart, hphase, h.phases]; exact decide_eq_true rfl), if_neg (fun h => (nomatch h)), Nat.add_zero] at htally
      refine ⟨h.phases, h.caller, ?_, ?_, ?_, h.none, h.mem_eq⟩
      · exact forall_move (P := fun _ => RestWorker s.finish.phase) h.workers trivial
      · show s.start.arrived - 1 = tally (fun j => (Function.update s.workers i .atStart j).waitsStart s.finish.phase) count +
          if s.caller = .inStart s.finish.phase then 1 else 0
        omega
      · show s.start.arrived - 1 < count + 1
        omega
    · cases hstep
  | atStart => rw [hw] at hstep; cases hstep
  | woken => rw [hw] at hstep; cases hstep
  | running steps => rw [hw] at hstep; cases hstep
  | atFinish => rw [hw] at hstep; cases hstep
  | inFinish phase => rw [hw] at hstep; cases hstep

/-! ## An action under way -/

theorem busyWorker_started {n : ℕ} {program done : List (M → M)} {w : Worker M} (h : BusyWorker n program done w) : done <+: program := by
  cases w with
  | atStart => exact h.elim
  | inStart phase =>
    rw [h.2]
    exact List.nil_prefix
  | woken =>
    have hnil : done = [] := h
    rw [hnil]
    exact List.nil_prefix
  | running steps => exact ⟨steps, Eq.symm h⟩
  | atFinish => exact ⟨[], (List.append_nil _).trans h⟩
  | inFinish phase => exact ⟨[], (List.append_nil _).trans h.2⟩

theorem called_mem {n : ℕ} {action : Option (Job M)} {calls : List (Job M)} (h : Called n action calls) {job : Job M}
    (hjob : action = some job) : job ∈ calls := by
  rw [h.2.2] at hjob
  exact List.mem_of_getElem? hjob

/-- All threads have done their programs. -/
theorem mem_of_done (hind : ∀ job ∈ s.calls, Independent count job) {job : Job M} (hcalled : Called s.finish.phase s.action s.calls)
    (hjob : s.action = some job) {done : ℕ → List (M → M)} {workers : ℕ → Worker M}
    (hdone : ∀ i < count, BusyWorker s.finish.phase (job i (after count mem (s.calls.take s.finish.phase))) (done i) (workers i))
    (hmem : s.mem = inOrder done count (after count mem (s.calls.take s.finish.phase)))
    (hwaits : ∀ i < count, (workers i).waitsFinish s.finish.phase = true) :
    s.mem = after count mem (s.calls.take (s.finish.phase + 1)) := by
  have hall : ∀ i < count, done i = job i (after count mem (s.calls.take s.finish.phase)) := by
    intro i hi
    have hplace := hdone i hi
    have hwait := hwaits i hi
    cases hw : workers i with
    | inFinish phase =>
      rw [hw] at hplace
      exact hplace.2
    | atStart => rw [hw] at hwait; cases hwait
    | woken => rw [hw] at hwait; cases hwait
    | running steps => rw [hw] at hwait; cases hwait
    | atFinish => rw [hw] at hwait; cases hwait
    | inStart phase => rw [hw] at hwait; cases hwait
  have hget : s.calls[s.finish.phase]? = some job := by rw [← hcalled.2.2, hjob]
  have htake : s.calls.take (s.finish.phase + 1) = s.calls.take s.finish.phase ++ [job] := by
    rw [List.take_add_one, hget]
    rfl
  have hsnoc : after count mem (s.calls.take s.finish.phase ++ [job]) =
      sequential count job (after count mem (s.calls.take s.finish.phase)) := List.foldl_append
  rw [htake, hsnoc, hmem, inOrder_congr hall, sequential_eq (hind job (called_mem hcalled hjob))]

theorem busy_callerStep (h : Busy count mem s) (hind : ∀ job ∈ s.calls, Independent count job) (hstep : callerStep count s = some s') :
    Rest count mem s' ∨ Busy count mem s' := by
  have hcaller := h.caller
  have harrived := h.arrived
  have hroom := h.room
  rw [callerStep] at hstep
  cases hc : s.caller with
  | idle => rw [hc] at hcaller; exact hcaller.elim
  | atStart => rw [hc] at hcaller; exact hcaller.elim
  | inStart phase =>
    rw [hc] at hstep hcaller harrived
    have hphase : phase = s.finish.phase := hcaller
    dsimp only at hstep
    rw [if_pos (by rw [hphase, h.phases]; exact Nat.lt_succ_self _)] at hstep
    obtain rfl := Option.some.inj hstep
    rw [if_neg (fun h => (nomatch h))] at harrived
    refine Or.inr ⟨h.phases, trivial, h.called, h.workers, ?_, h.room, h.none⟩
    rw [if_neg (fun h => (nomatch h))]
    exact harrived
  | atFinish =>
    rw [hc] at hstep harrived
    obtain rfl := Option.some.inj hstep
    rw [if_neg (fun h => (nomatch h)), Nat.add_zero] at harrived
    by_cases hfull : s.finish.arrived + 1 = count + 1
    · have hsignal : s.finish.signal (count + 1) = ⟨s.finish.phase + 1, 0⟩ := if_pos hfull
      rw [hsignal]
      left
      have hwaits : ∀ i < count, (s.workers i).waitsFinish s.finish.phase = true := tally_eq_self.mp (by omega)
      obtain ⟨job, hjob⟩ := Option.isSome_iff_exists.mp h.called.2.1
      obtain ⟨done, hdone, hmem⟩ := h.workers job hjob
      exact rest_of_full h.phases rfl h.none rfl rfl h.called.1 hwaits (mem_of_done hind h.called hjob hdone hmem hwaits)
    · have hsignal : s.finish.signal (count + 1) = ⟨s.finish.phase, s.finish.arrived + 1⟩ := if_neg hfull
      rw [hsignal]
      right
      refine ⟨h.phases, rfl, h.called, h.workers, ?_, ?_, h.none⟩
      · show s.finish.arrived + 1 = tally _ count + if Caller.inFinish s.finish.phase = .inFinish s.finish.phase then 1 else 0
        rw [if_pos rfl, harrived]
      · show s.finish.arrived + 1 < count + 1
        omega
  | inFinish phase =>
    rw [hc] at hstep hcaller
    have hphase : phase = s.finish.phase := hcaller
    dsimp only at hstep
    rw [hphase, if_neg (Nat.lt_irrefl _)] at hstep
    cases hstep
  | atClear => rw [hc] at hcaller; exact hcaller.elim

/-- A thread moves and the memory stays. -/
theorem Busy.move (h : Busy count mem s) {i : ℕ} (hi : i < count) {w : Worker M}
    (hw : ∀ program done, BusyWorker s.finish.phase program done (s.workers i) → BusyWorker s.finish.phase program done w)
    (hold : (s.workers i).waitsFinish s.finish.phase = false) (hnew : w.waitsFinish s.finish.phase = false) :
    Busy count mem (s.move i w) := by
  have htally := @tally_update _ s.workers (Worker.waitsFinish s.finish.phase) count i hi w
  rw [hold, hnew, if_neg Bool.false_ne_true, Nat.add_zero, Nat.add_zero] at htally
  refine ⟨h.phases, h.caller, h.called, fun job hjob => ?_, ?_, h.room, h.none⟩
  · obtain ⟨done, hdone, hmem⟩ := h.workers job hjob
    refine ⟨done, ?_, hmem⟩
    exact forall_move (P := fun j => BusyWorker s.finish.phase (job j (after count mem (s.calls.take s.finish.phase))) (done j))
      hdone (hw _ _ (hdone i hi))
  · show s.finish.arrived = tally (fun j => (Function.update s.workers i w j).waitsFinish s.finish.phase) count + _
    rw [htally]
    exact h.arrived

theorem busy_workerStep (h : Busy count mem s) (hind : ∀ job ∈ s.calls, Independent count job) {i : ℕ} (hi : i < count)
    (hstep : workerStep count s i = some s') : Rest count mem s' ∨ Busy count mem s' := by
  obtain ⟨job, hjob⟩ := Option.isSome_iff_exists.mp h.called.2.1
  have hmemCalls := called_mem h.called hjob
  obtain ⟨done, hdone, hmem⟩ := h.workers job hjob
  have hplace := hdone i hi
  have harrived := h.arrived
  have hroom := h.room
  rw [workerStep] at hstep
  cases hw : s.workers i with
  | atStart => rw [hw] at hplace; exact hplace.elim
  | inStart phase =>
    rw [hw] at hstep hplace
    dsimp only at hstep
    rw [if_pos (by rw [hplace.1, h.phases]; exact Nat.lt_succ_self _)] at hstep
    obtain rfl := Option.some.inj hstep
    refine Or.inr (h.move hi (fun program done hold => ?_) (by rw [hw]; rfl) rfl)
    rw [hw] at hold
    exact hold.2
  | woken =>
    rw [hw] at hstep hplace
    obtain rfl := Option.some.inj hstep
    have hnil : done i = [] := hplace
    have hsee : job i s.mem = job i (after count mem (s.calls.take s.finish.phase)) := by
      rw [hmem]
      refine job_inOrder (fun j hj g hg m => ?_) _
      have hne : i ≠ j := by
        rintro rfl
        rw [hnil] at hg
        cases hg
      exact (hind job hmemCalls).stable _ i hi j hj hne g ((busyWorker_started (hdone j hj)).subset hg) m
    rw [hjob, Option.elim_some, hsee]
    right
    have htally := @tally_update _ s.workers (Worker.waitsFinish s.finish.phase) count i hi
      (.running (job i (after count mem (s.calls.take s.finish.phase))))
    rw [hw, if_neg (fun h => (nomatch h)), if_neg (fun h => (nomatch h)), Nat.add_zero, Nat.add_zero] at htally
    refine ⟨h.phases, h.caller, h.called, fun job' hjob' => ⟨done, ?_, hmem⟩, ?_, h.room, h.none⟩
    · obtain rfl : job = job' := Option.some.inj (hjob.symm.trans hjob')
      apply forall_move (P := fun j => BusyWorker s.finish.phase (job j (after count mem (s.calls.take s.finish.phase))) (done j)) hdone
      show _ = done i ++ _
      rw [hnil, List.nil_append]
    · show s.finish.arrived = tally (fun j => (Function.update s.workers i _ j).waitsFinish s.finish.phase) count + _
      rw [htally]
      exact harrived
  | running steps =>
    rw [hw] at hstep hplace
    have hprogram : job i (after count mem (s.calls.take s.finish.phase)) = done i ++ steps := hplace
    cases steps with
    | nil =>
      obtain rfl := Option.some.inj hstep
      refine Or.inr (h.move hi (fun program done hold => ?_) (by rw [hw]; rfl) rfl)
      rw [hw] at hold
      have hold : program = done ++ [] := hold
      show done = program
      rw [hold, List.append_nil]
    | cons f steps =>
      obtain rfl := Option.some.inj hstep
      right
      have htally := @tally_update _ s.workers (Worker.waitsFinish s.finish.phase) count i hi (.running steps)
      rw [hw, if_neg (fun h => (nomatch h)), if_neg (fun h => (nomatch h)), Nat.add_zero, Nat.add_zero] at htally
      refine ⟨h.phases, h.caller, h.called, fun job' hjob' => ⟨Function.update done i (done i ++ [f]), ?_, ?_⟩, ?_, h.room, h.none⟩
      · obtain rfl : job = job' := Option.some.inj (hjob.symm.trans hjob')
        intro j hj
        show BusyWorker s.finish.phase _ _ (Function.update s.workers i (.running steps) j)
        obtain rfl | hne := eq_or_ne j i
        · rw [Function.update_self, Function.update_self]
          show _ = done j ++ [f] ++ steps
          rw [List.append_assoc]
          exact hprogram
        · rw [Function.update_of_ne hne, Function.update_of_ne hne]
          exact hdone j hj
      · show f s.mem = _
        rw [hmem]
        refine (inOrder_step hi (fun j hj hne g hg m => ?_) _).symm
        have hf : f ∈ job i (after count mem (s.calls.take s.finish.phase)) := by rw [hprogram]; simp
        exact (hind job hmemCalls).comm _ j hj i hi hne g ((busyWorker_started (hdone j hj)).subset hg) f hf m
      · show s.finish.arrived = tally (fun j => (Function.update s.workers i (.running steps) j).waitsFinish s.finish.phase) count + _
        rw [htally]
        exact harrived
  | atFinish =>
    rw [hw] at hstep hplace
    obtain rfl := Option.some.inj hstep
    have htally := @tally_update _ s.workers (Worker.waitsFinish s.finish.phase) count i hi (.inFinish s.finish.phase)
    rw [hw, if_neg (fun h => (nomatch h)), if_pos (by rw [Worker.waitsFinish]; exact decide_eq_true rfl), Nat.add_zero] at htally
    have hmoved : ∀ j < count, BusyWorker s.finish.phase (job j (after count mem (s.calls.take s.finish.phase))) (done j)
        ((s.move i (.inFinish s.finish.phase)).workers j) :=
      forall_move (P := fun j => BusyWorker s.finish.phase (job j (after count mem (s.calls.take s.finish.phase))) (done j)) hdone ⟨rfl, hplace⟩
    by_cases hfull : s.finish.arrived + 1 = count + 1
    · have hsignal : s.finish.signal (count + 1) = ⟨s.finish.phase + 1, 0⟩ := if_pos hfull
      rw [hsignal]
      left
      have hle := tally_le (fun j => (Function.update s.workers i (.inFinish s.finish.phase) j).waitsFinish s.finish.phase) count
      have hcaller : s.caller = .inFinish s.finish.phase := by
        by_contra hne
        rw [if_neg hne] at harrived
        omega
      rw [if_pos hcaller] at harrived
      have hwaits : ∀ j < count, ((s.move i (.inFinish s.finish.phase)).workers j).waitsFinish s.finish.phase = true := by
        apply tally_eq_self.mp
        show tally (fun j => (Function.update s.workers i (.inFinish s.finish.phase) j).waitsFinish s.finish.phase) count = count
        omega
      exact rest_of_full h.phases rfl h.none rfl hcaller h.called.1 hwaits (mem_of_done hind h.called hjob hmoved hmem hwaits)
    · have hsignal : s.finish.signal (count + 1) = ⟨s.finish.phase, s.finish.arrived + 1⟩ := if_neg hfull
      rw [hsignal]
      right
      refine ⟨h.phases, h.caller, h.called, fun job' hjob' => ⟨done, ?_, hmem⟩, ?_, ?_, h.none⟩
      · obtain rfl : job = job' := Option.some.inj (hjob.symm.trans hjob')
        exact hmoved
      · show s.finish.arrived + 1 =
          tally (fun j => (Function.update s.workers i (.inFinish s.finish.phase) j).waitsFinish s.finish.phase) count + _
        rw [htally, harrived]
        exact Nat.add_right_comm _ _ _
      · show s.finish.arrived + 1 < count + 1
        omega
  | inFinish phase =>
    rw [hw] at hstep hplace
    dsimp only at hstep
    rw [hplace.1, if_neg (Nat.lt_irrefl _)] at hstep
    cases hstep

theorem busy_timeoutStep (h : Busy count mem s) {i : ℕ} (hi : i < count) : timeoutStep s i = none := by
  obtain ⟨job, hjob⟩ := Option.isSome_iff_exists.mp h.called.2.1
  obtain ⟨done, hdone, -⟩ := h.workers job hjob
  have hplace := hdone i hi
  rw [timeoutStep]
  cases hw : s.workers i with
  | inStart phase =>
    rw [hw] at hplace
    dsimp only
    rw [hplace.1, h.phases, if_neg (Nat.ne_of_lt (Nat.lt_succ_self _))]
  | atStart => rfl
  | woken => rfl
  | running steps => rfl
  | atFinish => rfl
  | inFinish phase => rfl

/-! ## Runs -/

/-- The call that an act makes. -/
def Act.jobs : Act M → List (Job M)
  | .call job => [job]
  | _ => []

theorem callerStep_calls (h : callerStep count s = some s') : s'.calls = s.calls := by
  rw [callerStep] at h
  split at h
  · cases h
  · obtain rfl := Option.some.inj h
    rfl
  · obtain ⟨-, ⟨⟩⟩ := Option.ite_none_right_eq_some.mp h
    rfl
  · obtain rfl := Option.some.inj h
    rfl
  · obtain ⟨-, ⟨⟩⟩ := Option.ite_none_right_eq_some.mp h
    rfl
  · obtain rfl := Option.some.inj h
    rfl

theorem workerStep_calls {i : ℕ} (h : workerStep count s i = some s') : s'.calls = s.calls := by
  rw [workerStep] at h
  split at h
  · obtain rfl := Option.some.inj h
    rfl
  · obtain ⟨-, ⟨⟩⟩ := Option.ite_none_right_eq_some.mp h
    rfl
  · obtain rfl := Option.some.inj h
    rfl
  · obtain rfl := Option.some.inj h
    rfl
  · obtain rfl := Option.some.inj h
    rfl
  · obtain rfl := Option.some.inj h
    rfl
  · obtain ⟨-, ⟨⟩⟩ := Option.ite_none_right_eq_some.mp h
    rfl

/-- What holds after every step: nothing is under way, or one action is. -/
def Inv (count : ℕ) (mem : M) (s : Runner M) : Prop := Rest count mem s ∨ Busy count mem s

theorem step_inv (h : Inv count mem s) (hind : ∀ job ∈ s.calls, Independent count job) {act : Act M}
    (hstep : step count s act = some s') : Inv count mem s' ∧ s'.calls = s.calls ++ act.jobs := by
  cases act with
  | call job =>
    obtain ⟨hidle, ⟨⟩⟩ := Option.ite_none_right_eq_some.mp hstep
    refine ⟨?_, rfl⟩
    obtain h | h := h
    · exact Or.inl (h.call job hidle)
    · have hcaller := h.caller
      rw [hidle] at hcaller
      exact hcaller.elim
  | caller =>
    refine ⟨?_, (callerStep_calls hstep).trans (List.append_nil _).symm⟩
    obtain h | h := h
    · exact rest_callerStep h hstep
    · exact busy_callerStep h hind hstep
  | worker i =>
    obtain ⟨hi, hstep⟩ := Option.ite_none_right_eq_some.mp hstep
    refine ⟨?_, (workerStep_calls hstep).trans (List.append_nil _).symm⟩
    obtain h | h := h
    · exact rest_workerStep h hi hstep
    · exact busy_workerStep h hind hi hstep
  | timeout i =>
    obtain ⟨hi, hstep⟩ := Option.ite_none_right_eq_some.mp hstep
    obtain h | h := h
    · refine ⟨Or.inl (rest_timeoutStep h hi hstep), ?_⟩
      rw [timeoutStep] at hstep
      split at hstep
      · obtain ⟨-, ⟨⟩⟩ := Option.ite_none_right_eq_some.mp hstep
        exact (List.append_nil _).symm
      · cases hstep
    · rw [busy_timeoutStep h hi] at hstep
      cases hstep

theorem run_inv {acts : List (Act M)} (h : Inv count mem s) (hind : ∀ job ∈ s.calls ++ acts.flatMap Act.jobs, Independent count job)
    (hrun : acts.foldlM (step count) s = some s') : Inv count mem s' ∧ s'.calls = s.calls ++ acts.flatMap Act.jobs := by
  induction acts generalizing s with
  | nil =>
    obtain rfl := Option.some.inj hrun
    exact ⟨h, (List.append_nil _).symm⟩
  | cons act acts ih =>
    rw [List.foldlM_cons] at hrun
    obtain ⟨t, ht, hrest⟩ := Option.bind_eq_some_iff.mp hrun
    rw [List.flatMap_cons, ← List.append_assoc] at hind ⊢
    obtain ⟨hinv, hcalls⟩ := step_inv h (fun job hjob => hind job (List.mem_append_left _ (List.mem_append_left _ hjob))) ht
    rw [← hcalls] at hind ⊢
    exact ih hinv hind hrest

/-- While an action is called someone can move. -/
theorem Inv.progress (h : Inv count mem s) (hcaller : s.caller ≠ .idle) :
    (callerStep count s).isSome ∨ ∃ i < count, (workerStep count s i).isSome := by
  obtain h | h := h
  · have hc := h.caller
    cases hat : s.caller with
    | idle => exact absurd hat hcaller
    | atStart => exact Or.inl (by rw [callerStep, hat]; rfl)
    | atFinish => rw [hat] at hc; exact hc.elim
    | inFinish phase =>
      rw [hat] at hc
      exact Or.inl (by rw [callerStep, hat]; dsimp only; rw [if_pos hc.1]; rfl)
    | atClear => exact Or.inl (by rw [callerStep, hat]; rfl)
    | inStart phase =>
      rw [hat] at hc
      have harrived := h.arrived
      have hroom := h.room
      rw [hat, hc.1, if_pos rfl] at harrived
      right
      by_contra hnone
      have hall : tally (fun i => (s.workers i).waitsStart s.finish.phase) count = count := by
        rw [tally_eq_self]
        intro i hi
        by_contra hwait
        apply hnone
        refine ⟨i, hi, ?_⟩
        have hworker := h.workers i hi
        rw [workerStep]
        cases hw : s.workers i with
        | atStart => rfl
        | inStart p =>
          rw [hw] at hworker hwait
          have hphase : p = s.finish.phase := hworker
          exact absurd (decide_eq_true hphase) hwait
        | inFinish p =>
          rw [hw] at hworker
          have hlt : p < s.finish.phase := hworker
          dsimp only
          rw [if_pos hlt]
          rfl
        | woken => rw [hw] at hworker; exact hworker.elim
        | running steps => rw [hw] at hworker; exact hworker.elim
        | atFinish => rw [hw] at hworker; exact hworker.elim
      omega
  · have hc := h.caller
    cases hat : s.caller with
    | idle => exact absurd hat hcaller
    | atStart => rw [hat] at hc; exact hc.elim
    | atClear => rw [hat] at hc; exact hc.elim
    | atFinish => exact Or.inl (by rw [callerStep, hat]; rfl)
    | inStart phase =>
      rw [hat] at hc
      have hphase : phase = s.finish.phase := hc
      left
      rw [callerStep, hat]
      dsimp only
      rw [hphase, h.phases, if_pos (Nat.lt_succ_self _)]
      rfl
    | inFinish phase =>
      rw [hat] at hc
      have hphase : phase = s.finish.phase := hc
      have harrived := h.arrived
      have hroom := h.room
      rw [hat, hphase, if_pos rfl] at harrived
      obtain ⟨job, hjob⟩ := Option.isSome_iff_exists.mp h.called.2.1
      obtain ⟨done, hdone, -⟩ := h.workers job hjob
      right
      by_contra hnone
      have hall : tally (fun i => (s.workers i).waitsFinish s.finish.phase) count = count := by
        rw [tally_eq_self]
        intro i hi
        by_contra hwait
        apply hnone
        refine ⟨i, hi, ?_⟩
        have hworker := hdone i hi
        rw [workerStep]
        cases hw : s.workers i with
        | atStart => rw [hw] at hworker; exact hworker.elim
        | inStart p =>
          rw [hw] at hworker
          dsimp only
          rw [hworker.1, h.phases, if_pos (Nat.lt_succ_self _)]
          rfl
        | woken => rfl
        | running steps =>
          cases steps with
          | nil => rfl
          | cons f steps => rfl
        | atFinish => rfl
        | inFinish p =>
          rw [hw] at hworker hwait
          exact absurd (decide_eq_true hworker.1) hwait
      omega

/-- When a call has returned. -/
theorem Inv.idle (h : Inv count mem s) (hidle : s.caller = .idle) : s.mem = after count mem s.calls := by
  obtain h | h := h
  · have hlen := h.caller
    rw [hidle] at hlen
    have hlen : s.calls.length = s.finish.phase := hlen
    rw [h.mem_eq, ← hlen, List.take_length]
  · have hcaller := h.caller
    rw [hidle] at hcaller
    exact hcaller.elim

end

/-- The memory after the calls of a run. -/
theorem mem_of_idle {count : ℕ} {mem : M} {acts : List (Act M)} {s : Runner M} (hind : ∀ job ∈ acts.flatMap Act.jobs, Independent count job)
    (hrun : acts.foldlM (step count) (Runner.new mem) = some s) (hidle : s.caller = .idle) :
    s.mem = after count mem (acts.flatMap Act.jobs) := by
  obtain ⟨hinv, hcalls⟩ := run_inv (Or.inl (rest_new count mem)) hind hrun
  have hcalls : s.calls = acts.flatMap Act.jobs := hcalls
  rw [hinv.idle hidle, hcalls]

/-- However the threads are scheduled and whatever times out: when a call has returned, the memory is as if each
action had been invoked for one index after the other; no thread wakes up without an action; and a call is never
stuck. -/
theorem runParallel_sequential (count : ℕ) (mem : M) (acts : List (Act M)) (s : Runner M)
    (hind : ∀ job ∈ acts.flatMap Act.jobs, Independent count job) (hrun : acts.foldlM (step count) (Runner.new mem) = some s) :
    (s.caller = .idle → s.mem = after count mem (acts.flatMap Act.jobs)) ∧
    (∀ i < count, s.workers i = .woken → s.action.isSome) ∧
    (s.caller ≠ .idle → (callerStep count s).isSome ∨ ∃ i < count, (workerStep count s i).isSome) := by
  obtain ⟨hinv, hcalls⟩ := run_inv (Or.inl (rest_new count mem)) hind hrun
  have hcalls : s.calls = acts.flatMap Act.jobs := hcalls
  refine ⟨fun hidle => by rw [hinv.idle hidle, hcalls], fun i hi hwoken => ?_, hinv.progress⟩
  obtain h | h := hinv
  · have hworker := h.workers i hi
    rw [hwoken] at hworker
    exact hworker.elim
  · exact h.called.2.1

/-- Two threads, each with a counter of its own. -/
def twoCounters : Job (ℕ × ℕ) := fun i _ => [fun p => if i = 0 then (p.1 + 1, p.2) else (p.1, p.2 + 5)]

/-- One thread gives up once and the other comes first. -/
def twoCountersActs : List (Act (ℕ × ℕ)) :=
  [.worker 0, .timeout 0, .worker 1, .call twoCounters, .caller, .worker 0, .worker 1, .worker 1, .worker 1, .caller, .caller, .worker 0,
    .worker 0, .worker 1, .worker 1, .worker 0, .worker 0, .worker 0, .caller, .worker 1, .caller]

theorem independent_twoCounters : Independent 2 twoCounters where
  comm m₀ i hi j hj hne f hf g hg m := by
    obtain rfl := List.mem_singleton.mp hf
    obtain rfl := List.mem_singleton.mp hg
    obtain rfl | rfl : i = 0 ∨ i = 1 := by omega
    · have hother : j ≠ 0 := hne.symm
      simp [hother]
    · have hother : j = 0 := by omega
      simp [hother]
  stable _ _ _ _ _ _ _ _ _ := rfl

theorem runParallel_sequential_twoCounters : ∃ s, twoCountersActs.foldlM (step 2) (Runner.new (0, 0)) = some s ∧ s.caller = .idle ∧
    s.mem = after 2 (0, 0) [twoCounters] := by
  have hjobs : ∀ job ∈ twoCountersActs.flatMap Act.jobs, Independent 2 job := by
    intro job hjob
    obtain rfl := List.mem_singleton.mp hjob
    exact independent_twoCounters
  exact ⟨_, rfl, rfl, (runParallel_sequential 2 (0, 0) twoCountersActs _ hjobs rfl).1 rfl⟩

end Bohrium.NumCil.Threads
