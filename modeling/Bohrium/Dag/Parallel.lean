import Bohrium.Dag.Exact

/-! # The search with several threads

`TaskQueue` and the parallel region of `branch_n_bound` (`fuser/optimal/fuser.cpp`), one step at a time:
a call of `push` or of `pop`, which hold the mutex, the read of `best_cost` for `fuse_mask`, the
comparison after it, and the critical section that stores a new best graph. The counters and what they
print are left out. A waiting thread goes on when its condition holds, however it was woken.

Whatever the order of the steps, no task is lost or taken twice, and the threads stop only when nothing
is left to do. The critical section does not look at `best_cost` again: a thread that compared its cost
and was then overtaken by a cheaper graph stores its own over it. -/
namespace Bohrium
open Relation Edges
set_option autoImplicit false

/-! ## The queue -/

structure TaskQueue where
  tasks : List Task := []
  nwaiting : ℕ := 0
  nthreads : ℕ
  finished : Bool := false

/-- What a call of `pop` comes to: a task, a wait for the condition variable, or `Out of work`. -/
inductive Popped
  | took (task : Task)
  | waits
  | outOfWork

namespace TaskQueue

def push (q : TaskQueue) (task : Task) : TaskQueue := { q with tasks := q.tasks ++ [task] }

/-- `pop` from its loop on. -/
def resume (q : TaskQueue) : TaskQueue × Popped :=
  if q.tasks = [] ∧ q.finished = false then (q, .waits)
  else if q.finished then (q, .outOfWork)
  else
    match q.tasks.getLast? with
    | none => (q, .waits)
    | some task => ({ q with tasks := q.tasks.dropLast, nwaiting := q.nwaiting - 1 }, .took task)

def pop (q : TaskQueue) : TaskQueue × Popped :=
  let q := { q with nwaiting := q.nwaiting + 1 }
  if q.nthreads ≤ q.nwaiting ∧ q.tasks = [] then ({ q with finished := true }, .outOfWork)
  else q.resume

/-- The three ends of the loop. -/
theorem resume_cases (q : TaskQueue) :
    (q.tasks = [] ∧ q.finished = false ∧ q.resume = (q, .waits)) ∨
    (q.finished = true ∧ q.resume = (q, .outOfWork)) ∨
    ∃ tasks task, q.tasks = tasks ++ [task] ∧ q.finished = false ∧
      q.resume = ({ q with tasks := tasks, nwaiting := q.nwaiting - 1 }, .took task) := by
  unfold resume
  cases hf : q.finished with
  | true => exact Or.inr (Or.inl ⟨rfl, by simp⟩)
  | false =>
    rcases List.eq_nil_or_concat q.tasks with hnil | ⟨tasks, task, hq⟩
    · exact Or.inl ⟨hnil, rfl, by simp [hnil]⟩
    · refine Or.inr (Or.inr ⟨tasks, task, by rw [hq, List.concat_eq_append], rfl, ?_⟩)
      simp [hq]

end TaskQueue

/-! ## The threads -/

/-- Where a thread stands: before `pop`, waiting in it, with a task, with what `fuse_mask` returned for
the task, before the critical section, with branches to push, or out of the loop. -/
inductive Worker
  | ready
  | blocked
  | holds (task : Task)
  | fused (task : Task) (cost : ℤ) (fusibility : Bool) (dag : GraphDW)
  | saves (cost : ℤ) (dag : GraphDW)
  | pushes (tasks : List Task)
  | stopped

namespace Worker

def hasTask : Worker → Bool
  | .holds _ | .fused _ _ _ _ | .saves _ _ | .pushes _ => true
  | .ready | .blocked | .stopped => false

/-- The threads that `nwaiting` counts. -/
def inactive : Worker → Bool
  | .blocked | .stopped => true
  | _ => false

def isStopped : Worker → Bool
  | .stopped => true
  | _ => false

end Worker

structure Parallel where
  queue : TaskQueue
  bestCost : ℤ
  bestDag : GraphDW
  workers : List Worker

/-- What is logged of the steps. -/
inductive SearchEvent
  | push (task : Task)
  | pop (task : Task)
  | outOfWork
  | found (cost : ℤ) (dag : GraphDW)
  | save (cost : ℤ)

namespace Parallel

def setWorker (s : Parallel) (w : ℕ) (x : Worker) : Parallel := { s with workers := s.workers.set w x }

/-- The thread after a call of `pop`. -/
def settle (s : Parallel) (w : ℕ) : TaskQueue × Popped → Parallel × List SearchEvent
  | (q, .took task) => ({ s with queue := q }.setWorker w (.holds task), [.pop task])
  | (q, .waits) => ({ s with queue := q }.setWorker w .blocked, [])
  | (q, .outOfWork) => ({ s with queue := q }.setWorker w .stopped, [.outOfWork])

end Parallel

section
variable (boost : Boost) (model : FuseModel) (l : List BhInstruction) (edges2explore : List EdgeW)
  (g : GraphDW)

/-- The next step of a thread; `none` if it waits or has stopped. -/
def workerStep (s : Parallel) (w : ℕ) : Option (Parallel × List SearchEvent) :=
  match s.workers[w]? with
  | some .ready => some (s.settle w s.queue.pop)
  | some .blocked =>
    if s.queue.tasks = [] ∧ s.queue.finished = false then none else some (s.settle w s.queue.resume)
  | some (.holds task) =>
    (fuseMask boost model l s.bestCost edges2explore g task.1).map fun r =>
      (s.setWorker w (.fused task r.1 r.2.1 r.2.2), if r.2.1 then [.found r.1 r.2.2] else [])
  | some (.fused task cost fusibility dag) =>
    some (s.setWorker w (if s.bestCost ≤ cost then .ready
      else if fusibility then .saves cost dag else .pushes (branches task)), [])
  | some (.saves cost dag) =>
    some ({ s with bestCost := cost, bestDag := dag }.setWorker w .ready, [.save cost])
  | some (.pushes []) => some (s.setWorker w .ready, [])
  | some (.pushes (task :: tasks)) =>
    some ({ s with queue := s.queue.push task }.setWorker w (.pushes tasks), [.push task])
  | some .stopped | none => none

/-- The parallel region when it is entered: the greedy graph is the best one. -/
def startParallel (nthreads : ℕ) (init : Task) : Parallel :=
  { queue := { tasks := [init], nthreads := nthreads }
    bestCost := dagCost (g.fuseGreedy model l)
    bestDag := g.fuseGreedy model l
    workers := List.replicate nthreads .ready }

/-- A run of the threads in some order, with what they did; every step meets `C`. -/
inductive SearchRuns (C : Parallel → ℕ → Prop) (nthreads : ℕ) (init : Task) :
    List SearchEvent → Parallel → Prop
  | start : SearchRuns C nthreads init [.push init] (startParallel model l g nthreads init)
  | step {events new : List SearchEvent} {s s' : Parallel} {w : ℕ} : SearchRuns C nthreads init events s → C s w →
    workerStep boost model l edges2explore g s w = some (s', new) → SearchRuns C nthreads init (events ++ new) s'

end

/-- If the thread is about to store its graph, no other has stored a cheaper one since it compared. -/
def NotOvertaken (s : Parallel) (w : ℕ) : Prop :=
  ∀ cost dag, s.workers[w]? = some (.saves cost dag) → cost ≤ s.bestCost

/-! ## What a step can do -/

section
variable (boost : Boost) (model : FuseModel) (l : List BhInstruction) (edges2explore : List EdgeW)
  (g : GraphDW)

/-- The steps of a thread `w`, by what they change. -/
inductive WorkerStep (s : Parallel) (w : ℕ) : Parallel → List SearchEvent → Prop
  | take {tasks : List Task} {task : Task} (hw : s.workers[w]? = some .ready)
      (htasks : s.queue.tasks = tasks ++ [task]) (hfin : s.queue.finished = false) :
      WorkerStep s w
        ({ s with queue := { s.queue with tasks := tasks } }.setWorker w (.holds task)) [.pop task]
  | takeAwoken {tasks : List Task} {task : Task} (hw : s.workers[w]? = some .blocked)
      (htasks : s.queue.tasks = tasks ++ [task]) (hfin : s.queue.finished = false) :
      WorkerStep s w
        ({ s with queue := { s.queue with tasks := tasks, nwaiting := s.queue.nwaiting - 1 } }.setWorker w
          (.holds task)) [.pop task]
  | wait (hw : s.workers[w]? = some .ready) (htasks : s.queue.tasks = []) (hfin : s.queue.finished = false)
      (hlt : s.queue.nwaiting + 1 < s.queue.nthreads) : WorkerStep s w
        ({ s with queue := { s.queue with nwaiting := s.queue.nwaiting + 1 } }.setWorker w .blocked) []
  | finish (hw : s.workers[w]? = some .ready) (htasks : s.queue.tasks = [])
      (hle : s.queue.nthreads ≤ s.queue.nwaiting + 1) : WorkerStep s w
        ({ s with queue := { s.queue with nwaiting := s.queue.nwaiting + 1, finished := true } }.setWorker w
          .stopped) [.outOfWork]
  | leave (hw : s.workers[w]? = some .ready) (hfin : s.queue.finished = true) :
      WorkerStep s w
        ({ s with queue := { s.queue with nwaiting := s.queue.nwaiting + 1 } }.setWorker w .stopped) [.outOfWork]
  | leaveAwoken (hw : s.workers[w]? = some .blocked) (hfin : s.queue.finished = true) :
      WorkerStep s w (s.setWorker w .stopped) [.outOfWork]
  | fuse {task : Task} {r : ℤ × Bool × GraphDW} (hw : s.workers[w]? = some (.holds task))
      (hr : fuseMask boost model l s.bestCost edges2explore g task.1 = some r) :
      WorkerStep s w (s.setWorker w (.fused task r.1 r.2.1 r.2.2))
        (if r.2.1 then [.found r.1 r.2.2] else [])
  | prune {task : Task} {cost : ℤ} {fusibility : Bool} {dag : GraphDW}
      (hw : s.workers[w]? = some (.fused task cost fusibility dag)) (hle : s.bestCost ≤ cost) :
      WorkerStep s w (s.setWorker w .ready) []
  | accept {task : Task} {cost : ℤ} {dag : GraphDW} (hw : s.workers[w]? = some (.fused task cost true dag))
      (hlt : cost < s.bestCost) :
      WorkerStep s w (s.setWorker w (.saves cost dag)) []
  | branch {task : Task} {cost : ℤ} {dag : GraphDW} (hw : s.workers[w]? = some (.fused task cost false dag))
      (hlt : cost < s.bestCost) :
      WorkerStep s w (s.setWorker w (.pushes (branches task))) []
  | save {cost : ℤ} {dag : GraphDW} (hw : s.workers[w]? = some (.saves cost dag)) :
      WorkerStep s w
        ({ s with bestCost := cost, bestDag := dag }.setWorker w .ready) [.save cost]
  | pushedAll (hw : s.workers[w]? = some (.pushes [])) :
      WorkerStep s w (s.setWorker w .ready) []
  | push {task : Task} {tasks : List Task} (hw : s.workers[w]? = some (.pushes (task :: tasks))) :
      WorkerStep s w
        ({ s with queue := s.queue.push task }.setWorker w (.pushes tasks)) [.push task]

end

section
variable {boost : Boost} {model : FuseModel} {l : List BhInstruction} {edges2explore : List EdgeW}
  {g : GraphDW}

theorem workerStep_cases {s s' : Parallel} {w : ℕ} {new : List SearchEvent}
    (h : workerStep boost model l edges2explore g s w = some (s', new)) :
    WorkerStep boost model l edges2explore g s w s' new := by
  unfold workerStep at h
  cases hw : s.workers[w]? with
  | none =>
    rw [hw] at h
    cases h
  | some x =>
    rw [hw] at h
    cases x with
    | ready =>
      obtain ⟨rfl, rfl⟩ := Prod.mk.inj (Option.some.inj h)
      by_cases hcut : s.queue.nthreads ≤ s.queue.nwaiting + 1 ∧ s.queue.tasks = []
      · have hpop : s.queue.pop =
            ({ s.queue with nwaiting := s.queue.nwaiting + 1, finished := true }, .outOfWork) := if_pos hcut
        rw [hpop]
        exact .finish hw hcut.2 hcut.1
      · have hpop : s.queue.pop = TaskQueue.resume { s.queue with nwaiting := s.queue.nwaiting + 1 } :=
          if_neg hcut
        rw [hpop]
        rcases TaskQueue.resume_cases { s.queue with nwaiting := s.queue.nwaiting + 1 } with
          ⟨htasks, hfin, heq⟩ | ⟨hfin, heq⟩ | ⟨tasks, task, htasks, hfin, heq⟩ <;> rw [heq]
        · refine .wait hw htasks hfin ?_
          by_contra hge
          exact hcut ⟨by omega, htasks⟩
        · exact .leave hw hfin
        · exact .take hw htasks hfin
    | blocked =>
      dsimp only at h
      split_ifs at h with hwait
      obtain ⟨rfl, rfl⟩ := Prod.mk.inj (Option.some.inj h)
      rcases TaskQueue.resume_cases s.queue with
        ⟨htasks, hfin, heq⟩ | ⟨hfin, heq⟩ | ⟨tasks, task, htasks, hfin, heq⟩
      · exact absurd ⟨htasks, hfin⟩ hwait
      · rw [heq]
        exact .leaveAwoken hw hfin
      · rw [heq]
        exact .takeAwoken hw htasks hfin
    | holds task =>
      obtain ⟨r, hr, heq⟩ := Option.map_eq_some_iff.mp h
      obtain ⟨rfl, rfl⟩ := Prod.mk.inj heq
      exact .fuse hw hr
    | fused task cost fusibility dag =>
      obtain ⟨rfl, rfl⟩ := Prod.mk.inj (Option.some.inj h)
      by_cases hle : s.bestCost ≤ cost
      · rw [if_pos hle]
        exact .prune hw hle
      · rw [if_neg hle]
        cases fusibility with
        | true => exact .accept hw (lt_of_not_ge hle)
        | false => exact .branch hw (lt_of_not_ge hle)
    | saves cost dag =>
      obtain ⟨rfl, rfl⟩ := Prod.mk.inj (Option.some.inj h)
      exact .save hw
    | pushes tasks =>
      cases tasks with
      | nil =>
        obtain ⟨rfl, rfl⟩ := Prod.mk.inj (Option.some.inj h)
        exact .pushedAll hw
      | cons task tasks =>
        obtain ⟨rfl, rfl⟩ := Prod.mk.inj (Option.some.inj h)
        exact .push hw
    | stopped => cases h

end

/-! ## The monitor -/

theorem countP_inactive_set {workers : List Worker} {w : ℕ} {x : Worker} (hw : workers[w]? = some x) (y : Worker) :
    (workers.set w y).countP Worker.inactive + (if x.inactive then 1 else 0) =
      workers.countP Worker.inactive + if y.inactive then 1 else 0 := by
  obtain ⟨hlt, rfl⟩ := List.getElem?_eq_some_iff.mp hw
  rw [List.countP_set hlt]
  by_cases hx : workers[w].inactive = true
  · have hpos : 0 < workers.countP Worker.inactive :=
      List.countP_pos_iff.mpr ⟨_, List.getElem_mem hlt, hx⟩
    rw [if_pos hx]
    omega
  · rw [if_neg hx]
    omega

/-- `nwaiting` counts the threads that wait or have stopped. Once the queue is finished there is no
task left and no other thread. -/
structure Monitored (s : Parallel) : Prop where
  size : s.workers.length = s.queue.nthreads
  waiting : s.queue.nwaiting = s.workers.countP Worker.inactive
  finished : s.queue.finished = true → s.queue.tasks = [] ∧ ∀ x ∈ s.workers, x.inactive = true
  stopped : ∀ x ∈ s.workers, x.isStopped = true → s.queue.finished = true

namespace Monitored
variable {s s' : Parallel} {w : ℕ} {x y : Worker}

theorem not_finished (h : Monitored s) (hw : s.workers[w]? = some x) (hx : x.inactive = false) :
    s.queue.finished = false := by
  rw [← Bool.not_eq_true]
  intro hfin
  rw [(h.finished hfin).2 x (List.mem_of_getElem? hw)] at hx
  cases hx

theorem replace (h : Monitored s) (hw : s.workers[w]? = some x) (hworkers : s'.workers = s.workers.set w y)
    (hthreads : s'.queue.nthreads = s.queue.nthreads)
    (hwait : s'.queue.nwaiting + (if x.inactive then 1 else 0) = s.queue.nwaiting + if y.inactive then 1 else 0)
    (hfin : s'.queue.finished = true → s'.queue.tasks = [] ∧ ∀ z ∈ s'.workers, z.inactive = true)
    (hstop : y.isStopped = true → s'.queue.finished = true)
    (hkeep : s.queue.finished = true → s'.queue.finished = true) : Monitored s' := by
  refine ⟨?_, ?_, hfin, fun z hz hzs => ?_⟩
  · rw [hworkers, List.length_set, hthreads]
    exact h.size
  · have hcount := countP_inactive_set hw y
    have hwaiting := h.waiting
    rw [hworkers]
    omega
  · rw [hworkers] at hz
    rcases List.mem_or_eq_of_mem_set hz with hz | rfl
    · exact hkeep (h.stopped z hz hzs)
    · exact hstop hzs

/-- A step of a thread that is and stays active leaves the monitor as it is. -/
theorem active (h : Monitored s) (hw : s.workers[w]? = some x) (hx : x.inactive = false)
    (hy : y.inactive = false) (hworkers : s'.workers = s.workers.set w y)
    (hthreads : s'.queue.nthreads = s.queue.nthreads) (hwait : s'.queue.nwaiting = s.queue.nwaiting)
    (hfin : s'.queue.finished = s.queue.finished) : Monitored s' := by
  have hopen := h.not_finished hw hx
  refine h.replace hw hworkers hthreads ?_ (fun hf => ?_) (fun hs => ?_) (fun hf => ?_)
  · rw [hx, hy, hwait]
  · rw [hfin, hopen] at hf
    cases hf
  · cases y with
    | stopped => cases hy
    | _ => cases hs
  · rw [hfin]
    exact hf

end Monitored

section
variable {boost : Boost} {model : FuseModel} {l : List BhInstruction} {edges2explore : List EdgeW}
  {g : GraphDW}

theorem Monitored.step {s s' : Parallel} {w : ℕ} {new : List SearchEvent} (h : Monitored s)
    (hstep : WorkerStep boost model l edges2explore g s w s' new) : Monitored s' := by
  cases hstep with
  | take hw _ hfin => exact h.active hw rfl rfl rfl rfl rfl rfl
  | takeAwoken hw _ hfin =>
    have hpos : 0 < s.queue.nwaiting := by
      rw [h.waiting]
      exact List.countP_pos_iff.mpr ⟨_, List.mem_of_getElem? hw, rfl⟩
    refine h.replace hw rfl rfl (Nat.sub_add_cancel hpos) (fun hf => ?_) (fun hs => ?_) fun hf => hf
    · exact absurd (hfin.symm.trans hf) (by decide)
    · cases hs
  | wait hw _ hfin _ =>
    refine h.replace hw rfl rfl rfl (fun hf => ?_) (fun hs => ?_) fun hf => hf
    · exact absurd (hfin.symm.trans hf) (by decide)
    · cases hs
  | finish hw htasks hle =>
    refine h.replace hw rfl rfl rfl (fun _ => ⟨htasks, ?_⟩) (fun _ => rfl) fun _ => rfl
    have hcount := countP_inactive_set hw .stopped
    have hall : (s.workers.set w .stopped).countP Worker.inactive = (s.workers.set w .stopped).length := by
      have hbound := List.countP_le_length (p := Worker.inactive) (l := s.workers.set w .stopped)
      rw [List.length_set] at hbound ⊢
      have hsize := h.size
      have hwaiting := h.waiting
      simp only [Worker.inactive, Bool.false_eq_true, if_false, if_true] at hcount
      omega
    exact List.countP_eq_length.mp hall
  | leave hw hfin => exact absurd ((h.not_finished hw rfl).symm.trans hfin) (by decide)
  | leaveAwoken hw hfin =>
    obtain ⟨htasks, hall⟩ := h.finished hfin
    refine h.replace hw rfl rfl rfl (fun _ => ⟨htasks, fun z hz => ?_⟩) (fun _ => hfin) fun hf => hf
    rcases List.mem_or_eq_of_mem_set hz with hz | rfl
    · exact hall z hz
    · rfl
  | fuse hw _ => exact h.active hw rfl rfl rfl rfl rfl rfl
  | prune hw _ => exact h.active hw rfl rfl rfl rfl rfl rfl
  | accept hw _ => exact h.active hw rfl rfl rfl rfl rfl rfl
  | branch hw _ => exact h.active hw rfl rfl rfl rfl rfl rfl
  | save hw => exact h.active hw rfl rfl rfl rfl rfl rfl
  | pushedAll hw => exact h.active hw rfl rfl rfl rfl rfl rfl
  | push hw => exact h.active hw rfl rfl rfl rfl rfl rfl

/-- `Out of work` is signalled only when nothing is left to do and no thread can add to it. -/
theorem Monitored.outOfWork {s s' : Parallel} {w : ℕ} {new : List SearchEvent} (h : Monitored s)
    (hstep : WorkerStep boost model l edges2explore g s w s' new) (hout : SearchEvent.outOfWork ∈ new) :
    s.queue.tasks = [] ∧ ∀ x ∈ s.workers, x.hasTask = false := by
  have hfinished : s'.queue.finished = true ∧ s'.queue.tasks = s.queue.tasks ∧
      s'.workers = s.workers.set w .stopped ∧ ∃ x, s.workers[w]? = some x ∧ x.hasTask = false := by
    cases hstep with
    | finish hw _ _ => exact ⟨rfl, rfl, rfl, _, hw, rfl⟩
    | leave hw hfin => exact ⟨hfin, rfl, rfl, _, hw, rfl⟩
    | leaveAwoken hw hfin => exact ⟨hfin, rfl, rfl, _, hw, rfl⟩
    | fuse hw _ => split_ifs at hout <;> simp at hout
    | _ => simp at hout
  obtain ⟨hfin, htasks, hworkers, x, hw, hx⟩ := hfinished
  obtain ⟨hempty, hall⟩ := (h.step hstep).finished hfin
  refine ⟨htasks ▸ hempty, fun z hz => ?_⟩
  obtain ⟨i, hi⟩ := List.mem_iff_getElem?.mp hz
  by_cases hiw : i = w
  · rw [hiw, hw] at hi
    exact Option.some.inj hi ▸ hx
  · have hmem : z ∈ s'.workers := by
      rw [hworkers]
      refine List.mem_of_getElem? (i := i) ?_
      rw [List.getElem?_set_ne (Ne.symm hiw)]
      exact hi
    have hin := hall z hmem
    cases z <;> first | rfl | cases hin

end

/-! ## What was done -/

/-- The tasks that were pushed. -/
def pushed (events : List SearchEvent) : List Task := events.filterMap fun
  | .push task => some task
  | _ => none

/-- The tasks that were popped. -/
def popped (events : List SearchEvent) : List Task := events.filterMap fun
  | .pop task => some task
  | _ => none

/-- The graphs that `fuse_mask` let through, with their costs. -/
def found (events : List SearchEvent) : List (ℤ × GraphDW) := events.filterMap fun
  | .found cost dag => some (cost, dag)
  | _ => none

/-- The values that were stored in `best_cost`. -/
def stored (events : List SearchEvent) : List ℤ := events.filterMap fun
  | .save cost => some cost
  | _ => none

theorem pushed_append (es fs : List SearchEvent) : pushed (es ++ fs) = pushed es ++ pushed fs := List.filterMap_append

theorem popped_append (es fs : List SearchEvent) : popped (es ++ fs) = popped es ++ popped fs := List.filterMap_append

theorem found_append (es fs : List SearchEvent) : found (es ++ fs) = found es ++ found fs := List.filterMap_append

theorem stored_append (es fs : List SearchEvent) : stored (es ++ fs) = stored es ++ stored fs := List.filterMap_append

section
variable {boost : Boost} {model : FuseModel} {l : List BhInstruction} {edges2explore : List EdgeW}
  {g : GraphDW}

/-- What was pushed was popped or is still in the queue. -/
theorem WorkerStep.tasks {s s' : Parallel} {w : ℕ} {new : List SearchEvent}
    (hstep : WorkerStep boost model l edges2explore g s w s' new) {events : List SearchEvent}
    (h : (pushed events).Perm (popped events ++ s.queue.tasks)) :
    (pushed (events ++ new)).Perm (popped (events ++ new) ++ s'.queue.tasks) := by
  rw [pushed_append, popped_append]
  have htake : ∀ tasks task, s.queue.tasks = tasks ++ [task] →
      (pushed events ++ []).Perm (popped events ++ [task] ++ tasks) := by
    intro tasks task htasks
    rw [htasks] at h
    rw [List.append_nil, List.append_assoc]
    exact h.trans (List.Perm.append_left _ List.perm_append_comm)
  have hsame : (pushed events ++ []).Perm (popped events ++ [] ++ s.queue.tasks) := by
    rw [List.append_nil, List.append_nil]
    exact h
  cases hstep with
  | take _ htasks _ => exact htake _ _ htasks
  | takeAwoken _ htasks _ => exact htake _ _ htasks
  | fuse _ _ => split_ifs <;> exact hsame
  | push _ =>
    rw [show popped [SearchEvent.push _] = [] from rfl, List.append_nil]
    change (pushed events ++ [_]).Perm (popped events ++ (s.queue.tasks ++ [_]))
    rw [← List.append_assoc]
    exact h.append_right _
  | _ => exact hsame

/-! ## The best graph -/

/-- The graph that a thread has found and not yet compared or stored. -/
def Worker.pending : Worker → Option (ℤ × GraphDW)
  | .fused _ cost true dag => some (cost, dag)
  | .saves cost dag => some (cost, dag)
  | _ => none

/-- While no thread is overtaken: the values stored never rise, the best graph is the first one or one
that was found, and a graph that was found is no cheaper or still with its thread. -/
structure Leading (model : FuseModel) (l : List BhInstruction) (g : GraphDW) (events : List SearchEvent)
    (s : Parallel) : Prop where
  cost : dagCost s.bestDag = s.bestCost
  least : ∀ c ∈ dagCost (g.fuseGreedy model l) :: stored events, s.bestCost ≤ c
  falling : (dagCost (g.fuseGreedy model l) :: stored events).Pairwise (· ≥ ·)
  origin : s.bestDag = g.fuseGreedy model l ∨ (s.bestCost, s.bestDag) ∈ found events
  known : ∀ x ∈ s.workers, ∀ p, x.pending = some p → p ∈ found events ∧ dagCost p.2 = p.1
  done : ∀ p ∈ found events, s.bestCost ≤ p.1 ∨ ∃ x ∈ s.workers, x.pending = some p

namespace Leading
variable {s s' : Parallel} {w : ℕ} {x y : Worker} {events : List SearchEvent}

/-- The graph of the thread that moved is still with it, or is no cheaper. -/
theorem done_set (h : Leading model l g events s) (hw : s.workers[w]? = some x)
    (hworkers : s'.workers = s.workers.set w y) (hbest : s'.bestCost ≤ s.bestCost)
    (hkeep : ∀ p, x.pending = some p → y.pending = some p ∨ s'.bestCost ≤ p.1) :
    ∀ p ∈ found events, s'.bestCost ≤ p.1 ∨ ∃ x ∈ s'.workers, x.pending = some p := by
  intro p hp
  rcases h.done p hp with hle | ⟨z, hz, hzp⟩
  · exact Or.inl (hbest.trans hle)
  obtain ⟨i, hi⟩ := List.mem_iff_getElem?.mp hz
  have hlt : w < s.workers.length := (List.getElem?_eq_some_iff.mp hw).1
  by_cases hiw : i = w
  · rw [hiw, hw] at hi
    obtain rfl := Option.some.inj hi
    rcases hkeep p hzp with hy | hle
    · exact Or.inr ⟨y, hworkers ▸ List.mem_set hlt y, hy⟩
    · exact Or.inl hle
  · refine Or.inr ⟨z, ?_, hzp⟩
    rw [hworkers]
    refine List.mem_of_getElem? (i := i) ?_
    rw [List.getElem?_set_ne (Ne.symm hiw)]
    exact hi

/-- A step that neither finds nor stores a graph. -/
theorem quiet (h : Leading model l g events s) {new : List SearchEvent} (hw : s.workers[w]? = some x)
    (hworkers : s'.workers = s.workers.set w y) (hcost : s'.bestCost = s.bestCost)
    (hdag : s'.bestDag = s.bestDag) (hfound : found new = []) (hstored : stored new = [])
    (hy : ∀ p, y.pending = some p → x.pending = some p)
    (hkeep : ∀ p, x.pending = some p → y.pending = some p ∨ s'.bestCost ≤ p.1) :
    Leading model l g (events ++ new) s' := by
  have hf : found (events ++ new) = found events := by rw [found_append, hfound, List.append_nil]
  have hst : stored (events ++ new) = stored events := by rw [stored_append, hstored, List.append_nil]
  refine ⟨?_, ?_, ?_, ?_, ?_, ?_⟩
  · rw [hdag, hcost]
    exact h.cost
  · rw [hst, hcost]
    exact h.least
  · rw [hst]
    exact h.falling
  · rw [hf, hdag, hcost]
    exact h.origin
  · intro z hz p hzp
    rw [hf]
    rw [hworkers] at hz
    rcases List.mem_or_eq_of_mem_set hz with hz | rfl
    · exact h.known z hz p hzp
    · exact h.known x (List.mem_of_getElem? hw) p (hy p hzp)
  · rw [hf]
    exact h.done_set hw hworkers hcost.le hkeep

/-- A graph is found: it stays with its thread. -/
theorem fuse (h : Leading model l g events s) {task : Task} {cost : ℤ} {dag : GraphDW}
    (hw : s.workers[w]? = some (.holds task)) (hdag : dagCost dag = cost) :
    Leading model l g (events ++ [.found cost dag]) (s.setWorker w (.fused task cost true dag)) := by
  have hlt : w < s.workers.length := (List.getElem?_eq_some_iff.mp hw).1
  have hf : found (events ++ [.found cost dag]) = found events ++ [(cost, dag)] := found_append _ _
  have hst : stored (events ++ [.found cost dag]) = stored events := by
    rw [stored_append]
    exact List.append_nil _
  refine ⟨h.cost, ?_, ?_, ?_, ?_, ?_⟩
  · rw [hst]
    exact h.least
  · rw [hst]
    exact h.falling
  · rw [hf]
    exact h.origin.imp_right (List.mem_append_left _)
  · intro z hz p hzp
    rw [hf]
    rcases List.mem_or_eq_of_mem_set hz with hz | rfl
    · obtain ⟨hmem, hp⟩ := h.known z hz p hzp
      exact ⟨List.mem_append_left _ hmem, hp⟩
    · obtain rfl := Option.some.inj hzp
      exact ⟨List.mem_append_right _ (List.mem_singleton_self _), hdag⟩
  · intro p hp
    rw [hf] at hp
    rcases List.mem_append.mp hp with hp | hp
    · have hset : (s.setWorker w (.fused task cost true dag)).workers =
          s.workers.set w (.fused task cost true dag) := rfl
      exact h.done_set hw hset (le_refl _) (fun _ hnone => by cases hnone) p hp
    · rw [List.mem_singleton.mp hp]
      exact Or.inr ⟨_, List.mem_set hlt _, rfl⟩

/-- A thread that was not overtaken stores its graph. -/
theorem save (h : Leading model l g events s) {cost : ℤ} {dag : GraphDW}
    (hw : s.workers[w]? = some (.saves cost dag)) (hle : cost ≤ s.bestCost) :
    Leading model l g (events ++ [.save cost])
      ({ s with bestCost := cost, bestDag := dag }.setWorker w .ready) := by
  obtain ⟨hmem, hdag⟩ := h.known _ (List.mem_of_getElem? hw) (cost, dag) rfl
  have hf : found (events ++ [.save cost]) = found events := by
    rw [found_append]
    exact List.append_nil _
  have hst : stored (events ++ [.save cost]) = stored events ++ [cost] := stored_append _ _
  have hleast : ∀ c ∈ dagCost (g.fuseGreedy model l) :: stored events, cost ≤ c :=
    fun c hc => hle.trans (h.least c hc)
  refine ⟨hdag, ?_, ?_, ?_, ?_, ?_⟩
  · rw [hst, ← List.cons_append]
    intro c hc
    rcases List.mem_append.mp hc with hc | hc
    · exact hleast c hc
    · rw [List.mem_singleton.mp hc]
      exact le_refl cost
  · rw [hst, ← List.cons_append]
    refine List.pairwise_append.mpr ⟨h.falling, List.pairwise_singleton _ _, fun c hc d hd => ?_⟩
    rw [List.mem_singleton.mp hd]
    exact hleast c hc
  · rw [hf]
    exact Or.inr hmem
  · intro z hz p hzp
    rw [hf]
    rcases List.mem_or_eq_of_mem_set hz with hz | rfl
    · exact h.known z hz p hzp
    · cases hzp
  · have hset : ({ s with bestCost := cost, bestDag := dag }.setWorker w .ready).workers =
        s.workers.set w .ready := rfl
    rw [hf]
    refine h.done_set hw hset hle fun p hp => Or.inr ?_
    obtain rfl := Option.some.inj hp
    exact le_refl cost

end Leading

theorem Leading.step (hs : g.Sound l)
    (hes : ∀ e ∈ edges2explore, e.source < g.numVertices ∧ e.target < g.numVertices)
    {s s' : Parallel} {w : ℕ} {events new : List SearchEvent} (h : Leading model l g events s)
    (hC : NotOvertaken s w) (hstep : WorkerStep boost model l edges2explore g s w s' new) :
    Leading model l g (events ++ new) s' := by
  have hnone : ∀ {x y : Worker}, x.pending = none →
      ∀ p, x.pending = some p → y.pending = some p ∨ s.bestCost ≤ p.1 := by
    intro x y hx p hp
    rw [hx] at hp
    cases hp
  cases hstep with
  | @fuse task r hw hr =>
    obtain ⟨r', hr', _, _, hdag⟩ := hs.fuseMask_spec boost model s.bestCost hes task.1
    obtain rfl := Option.some.inj (hr.symm.trans hr')
    obtain ⟨cost, fusibility, dag⟩ := r
    cases fusibility with
    | true => exact h.fuse hw (hdag rfl)
    | false => exact h.quiet hw rfl rfl rfl rfl rfl (fun p hp => by cases hp) (hnone rfl)
  | @prune task cost fusibility dag hw hle =>
    refine h.quiet hw rfl rfl rfl rfl rfl (fun p hp => by cases hp) fun p hp => Or.inr ?_
    cases fusibility with
    | true => exact Option.some.inj hp ▸ hle
    | false => cases hp
  | accept hw _ => exact h.quiet hw rfl rfl rfl rfl rfl (fun p hp => hp) fun p hp => Or.inl hp
  | branch hw _ => exact h.quiet hw rfl rfl rfl rfl rfl (fun p hp => by cases hp) (hnone rfl)
  | save hw => exact h.save hw (hC _ _ hw)
  | take hw _ _ => exact h.quiet hw rfl rfl rfl rfl rfl (fun p hp => by cases hp) (hnone rfl)
  | takeAwoken hw _ _ => exact h.quiet hw rfl rfl rfl rfl rfl (fun p hp => by cases hp) (hnone rfl)
  | wait hw _ _ _ => exact h.quiet hw rfl rfl rfl rfl rfl (fun p hp => by cases hp) (hnone rfl)
  | finish hw _ _ => exact h.quiet hw rfl rfl rfl rfl rfl (fun p hp => by cases hp) (hnone rfl)
  | leave hw _ => exact h.quiet hw rfl rfl rfl rfl rfl (fun p hp => by cases hp) (hnone rfl)
  | leaveAwoken hw _ => exact h.quiet hw rfl rfl rfl rfl rfl (fun p hp => by cases hp) (hnone rfl)
  | pushedAll hw => exact h.quiet hw rfl rfl rfl rfl rfl (fun p hp => by cases hp) (hnone rfl)
  | push hw => exact h.quiet hw rfl rfl rfl rfl rfl (fun p hp => by cases hp) (hnone rfl)

end

/-! ## Whole runs -/

section
variable (boost : Boost) (model : FuseModel) (l : List BhInstruction) (edges2explore : List EdgeW)
  (g : GraphDW)

/-- No work is lost: what was pushed was popped once or waits, nothing waits when all threads have
stopped, and a thread is sent away only when nothing waits and no thread holds a task. -/
structure KeepsWork (events : List SearchEvent) (s : Parallel) : Prop where
  once : (pushed events).Perm (popped events ++ s.queue.tasks)
  all : (∀ x ∈ s.workers, x.isStopped = true) → (pushed events).Perm (popped events)
  outOfWork : ∀ w s' new, workerStep boost model l edges2explore g s w = some (s', new) →
    SearchEvent.outOfWork ∈ new → s.queue.tasks = [] ∧ ∀ x ∈ s.workers, x.hasTask = false

/-- No better solution is lost: the values of `best_cost` never rise, and when all threads have stopped
the best graph is the cheapest of the greedy one and those that were found. -/
structure KeepsBest (events : List SearchEvent) (s : Parallel) : Prop where
  falling : (dagCost (g.fuseGreedy model l) :: stored events).Pairwise (· ≥ ·)
  cheapest : (∀ x ∈ s.workers, x.isStopped = true) → dagCost s.bestDag = s.bestCost ∧
    (s.bestDag = g.fuseGreedy model l ∨ (s.bestCost, s.bestDag) ∈ found events) ∧
    s.bestCost ≤ dagCost (g.fuseGreedy model l) ∧ ∀ p ∈ found events, s.bestCost ≤ p.1

end

section
variable {boost : Boost} {model : FuseModel} {l : List BhInstruction} {edges2explore : List EdgeW}
  {g : GraphDW} {C : Parallel → ℕ → Prop} {nthreads : ℕ} {init : Task} {events : List SearchEvent} {s : Parallel}

theorem SearchRuns.monitored (h : SearchRuns boost model l edges2explore g C nthreads init events s) :
    Monitored s ∧ s.workers.length = nthreads ∧ (pushed events).Perm (popped events ++ s.queue.tasks) := by
  induction h with
  | start =>
    refine ⟨⟨?_, ?_, ?_, ?_⟩, ?_, List.Perm.refl _⟩
    · exact List.length_replicate
    · refine (List.countP_eq_zero.mpr fun x hx => ?_).symm
      rw [List.eq_of_mem_replicate hx]
      decide
    · intro hf
      cases hf
    · intro x hx hstop
      rw [List.eq_of_mem_replicate hx] at hstop
      cases hstop
    · exact List.length_replicate
  | step _ _ hstep ih =>
    obtain ⟨hm, hlen, hperm⟩ := ih
    have hcases := workerStep_cases hstep
    refine ⟨hm.step hcases, ?_, hcases.tasks hperm⟩
    rw [← hlen]
    cases hcases <;> exact List.length_set

theorem SearchRuns.keepsWork (hn : 0 < nthreads) (h : SearchRuns boost model l edges2explore g C nthreads init events s) :
    KeepsWork boost model l edges2explore g events s := by
  obtain ⟨hm, hlen, hperm⟩ := h.monitored
  refine ⟨hperm, fun hall => ?_, fun w s' new hstep hout => hm.outOfWork (workerStep_cases hstep) hout⟩
  obtain ⟨x, hx⟩ := List.exists_mem_of_length_pos (hlen ▸ hn)
  rw [(hm.finished (hm.stopped x hx (hall x hx))).1, List.append_nil] at hperm
  exact hperm

theorem SearchRuns.leading (hs : g.Sound l)
    (hes : ∀ e ∈ edges2explore, e.source < g.numVertices ∧ e.target < g.numVertices)
    (h : SearchRuns boost model l edges2explore g NotOvertaken nthreads init events s) :
    Leading model l g events s := by
  induction h with
  | start =>
    refine ⟨rfl, ?_, List.pairwise_singleton _ _, Or.inl rfl, ?_, ?_⟩
    · intro c hc
      rw [List.mem_singleton.mp hc]
      exact le_refl _
    · intro x hx p hp
      rw [List.eq_of_mem_replicate hx] at hp
      cases hp
    · intro p hp
      cases hp
  | step _ hC hstep ih => exact ih.step hs hes hC (workerStep_cases hstep)

theorem Leading.keepsBest (h : Leading model l g events s) : KeepsBest model l g events s := by
  refine ⟨h.falling, fun hall => ⟨h.cost, h.origin, h.least _ List.mem_cons_self, fun p hp => ?_⟩⟩
  rcases h.done p hp with hle | ⟨x, hx, hxp⟩
  · exact hle
  · have hstop := hall x hx
    cases x with
    | stopped => cases hxp
    | _ => cases hstop

end

/-- Any number of threads, in any order of their steps: no work is lost. While no thread is overtaken
between its comparison and the critical section, no better solution is lost either. -/
theorem parallel_search (boost : Boost) (model : FuseModel) (l : List BhInstruction) (g : GraphDW)
    (order : ExploreOrder) (hs : g.Sound l) (nthreads : ℕ) (hn : 0 < nthreads) (init : Task) :
    (∀ events s, SearchRuns boost model l (edgesToExplore order g) g (fun _ _ => True) nthreads init events s →
      KeepsWork boost model l (edgesToExplore order g) g events s) ∧
    ∀ events s, SearchRuns boost model l (edgesToExplore order g) g NotOvertaken nthreads init events s →
      KeepsBest model l g events s := by
  have hes : ∀ e ∈ edgesToExplore order g, e.source < g.numVertices ∧ e.target < g.numVertices := by
    intro e he
    obtain ⟨_, h1, h2⟩ := hs.ends e (GraphDW.mem_edgesToExplore he)
    exact ⟨h1.lt, h2.lt⟩
  exact ⟨fun events s h => h.keepsWork hn, fun events s h => (h.leading hs hes).keepsBest⟩

theorem parallel_search_producerConsumer :
    (∀ events s, SearchRuns plainBoost .sameShape producerConsumer
        (edgesToExplore .regular (fromBhir producerConsumer .sameShape)) (fromBhir producerConsumer .sameShape)
        (fun _ _ => True) 2 ([true], 0) events s → KeepsWork plainBoost .sameShape producerConsumer
          (edgesToExplore .regular (fromBhir producerConsumer .sameShape)) (fromBhir producerConsumer .sameShape)
          events s) ∧
    ∀ events s, SearchRuns plainBoost .sameShape producerConsumer
      (edgesToExplore .regular (fromBhir producerConsumer .sameShape)) (fromBhir producerConsumer .sameShape)
      NotOvertaken 2 ([true], 0) events s →
        KeepsBest .sameShape producerConsumer (fromBhir producerConsumer .sameShape) events s :=
  parallel_search plainBoost .sameShape producerConsumer (fromBhir producerConsumer .sameShape) .regular
    (sound_fromBhir .sameShape producerConsumer).1 2 (by decide) ([true], 0)

/-! ## A thread that is overtaken -/

/-- The steps of the threads in the given order. -/
def runWorkers (boost : Boost) (model : FuseModel) (l : List BhInstruction) (edges2explore : List EdgeW)
    (g : GraphDW) : List ℕ → List SearchEvent → Parallel → Option (List SearchEvent × Parallel)
  | [], events, s => some (events, s)
  | w :: ws, events, s =>
    (workerStep boost model l edges2explore g s w).bind fun p =>
      runWorkers boost model l edges2explore g ws (events ++ p.2) p.1

theorem runs_runWorkers {boost : Boost} {model : FuseModel} {l : List BhInstruction}
    {edges2explore : List EdgeW} {g : GraphDW} {nthreads : ℕ} {init : Task} (ws : List ℕ)
    {events events' : List SearchEvent} {s s' : Parallel}
    (h : SearchRuns boost model l edges2explore g (fun _ _ => True) nthreads init events s)
    (hrun : runWorkers boost model l edges2explore g ws events s = some (events', s')) :
    SearchRuns boost model l edges2explore g (fun _ _ => True) nthreads init events' s' := by
  induction ws generalizing events s with
  | nil =>
    obtain ⟨rfl, rfl⟩ := Prod.mk.inj (Option.some.inj hrun)
    exact h
  | cons w ws ih =>
    obtain ⟨p, hp, hrest⟩ := Option.bind_eq_some_iff.mp hrun
    exact ih (h.step trivial hp) hrest

/-- `r = p + 1; x = p + q; m = q < r; y = r + x'; x'' = m`, where `p`, `q` and `r` are broadcast to a grid
of four by three and `x'` and `x''` are `x` moved by one and two elements. -/
def forkedBatch : List BhInstruction :=
  let grid : BhBase → ℤ → BhView := fun base start => ⟨some base, start, [⟨4, 3⟩, ⟨3, 1⟩]⟩
  let column : BhBase → BhView := fun base => ⟨some base, 0, [⟨4, 1⟩, ⟨3, 0⟩]⟩
  let row : BhBase → BhView := fun base => ⟨some base, 0, [⟨4, 0⟩, ⟨3, 1⟩]⟩
  let p : BhBase := ⟨0, .int64, 3⟩
  let q : BhBase := ⟨1, .int64, 4⟩
  let r : BhBase := ⟨2, .int64, 12⟩
  let x : BhBase := ⟨3, .int64, 14⟩
  let m : BhBase := ⟨4, .bool, 12⟩
  let y : BhBase := ⟨5, .int64, 12⟩
  let k : BhView := ⟨none, 0, []⟩
  let one : BhConstant := .int .int64 1
  [⟨.add, grid r 0, row p, k, one⟩, ⟨.add, grid x 0, row p, column q, one⟩,
    ⟨.less, grid m 0, column q, row r, one⟩, ⟨.add, grid y 0, row r, grid x 1, one⟩,
    ⟨.identity, grid x 2, grid m 0, k, one⟩]

/-- The graph that the optimal fuser hands to the search. -/
def forkedGraph : GraphDW :=
  match split plainBoost (fromBhir forkedBatch .broadest) with
  | some [d] => (d.fuseGently .broadest forkedBatch).transitiveReduction
  | _ => {}

/-- The order of the steps: thread 1 takes a task of cost 628, compares and stops before the critical
section; thread 0 finds and stores a graph of cost 616; thread 1 goes on; both work to the end. -/
def overtaking : List ℕ :=
  List.replicate 16 0 ++ [1, 1, 1] ++ List.replicate 15 0 ++ [1] ++ List.replicate 32 0 ++ [1, 0]

/-- `best_cost` rises, and the threads stop with a graph that is not the cheapest they found. -/
theorem not_keepsBest_forkedGraph : ¬ ∀ events s, SearchRuns plainBoost .broadest forkedBatch
    (edgesToExplore .regular forkedGraph) forkedGraph (fun _ _ => True) 2 (List.replicate 4 true, 0) events s →
      KeepsWork plainBoost .broadest forkedBatch (edgesToExplore .regular forkedGraph) forkedGraph events s ∧
        KeepsBest .broadest forkedBatch forkedGraph events s := by
  intro h
  have hrun : (runWorkers plainBoost .broadest forkedBatch (edgesToExplore .regular forkedGraph) forkedGraph
      overtaking [.push (List.replicate 4 true, 0)]
      (startParallel .broadest forkedBatch forkedGraph 2 (List.replicate 4 true, 0))).any (fun p =>
        p.2.workers.all Worker.isStopped && p.2.bestCost == 628 && (found p.1).any fun q => q.1 == 616) = true := by
    decide +kernel
  obtain ⟨⟨events, s⟩, hruns, hend⟩ := (Option.any_eq_true _ _).mp hrun
  simp only [Bool.and_eq_true, List.all_eq_true, List.any_eq_true, beq_iff_eq] at hend
  obtain ⟨⟨hall, hbest⟩, q, hq, hcost⟩ := hend
  have hle := ((h events s (runs_runWorkers overtaking SearchRuns.start hruns)).2.cheapest hall).2.2.2 q hq
  rw [hbest, hcost] at hle
  exact absurd hle (by decide)

end Bohrium
