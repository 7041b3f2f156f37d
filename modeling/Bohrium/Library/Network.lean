import Mathlib.Logic.Function.Basic
import Mathlib.Data.Nat.Notation
import Mathlib.Tactic.SplitIfs

/-! # Processes with FIFO channels

Each process runs a list of actions on a state of its own and talks to the others over a reliable
FIFO channel per ordered pair. Two steps of different processes commute, so all runs of a program end
in the same state if one of them ends (`Runs.rest`). A list of global events, each at one process or
from one process to another, has such a run: it is executed event by event (`runs_start`). So
whatever the order of steps, the processes do together what the events say (`runs_project`). -/
namespace Network
set_option autoImplicit false

variable {P S M : Type}

/-- What a process does next. -/
inductive Action (P S M : Type)
  | act (f : S → S)
  | send (dst : P) (msg : S → M)
  | recv (src : P) (upd : M → S → S)

/-- The remaining actions and the state of each process, and the messages under way. -/
@[ext]
structure Net (P S M : Type) where
  prog : P → List (Action P S M)
  state : P → S
  chan : P → P → List M

section Step
variable [DecidableEq P]

def setChan (chan : P → P → List M) (p q : P) (ms : List M) : P → P → List M :=
  Function.update chan p (Function.update (chan p) q ms)

/-- The next action of a process, if it has one and does not wait for a message. -/
def Net.step (n : Net P S M) (p : P) : Option (Net P S M) :=
  match n.prog p with
  | [] => none
  | .act f :: rest => some
    { n with prog := Function.update n.prog p rest, state := Function.update n.state p (f (n.state p)) }
  | .send q msg :: rest => some
    { n with
      prog := Function.update n.prog p rest
      chan := setChan n.chan p q (n.chan p q ++ [msg (n.state p)]) }
  | .recv q upd :: rest =>
    match n.chan q p with
    | [] => none
    | m :: ms => some
      { prog := Function.update n.prog p rest
        state := Function.update n.state p (upd m (n.state p))
        chan := setChan n.chan q p ms }

theorem setChan_apply (chan : P → P → List M) (p q : P) (ms : List M) (a b : P) :
    setChan chan p q ms a b = if a = p ∧ b = q then ms else chan a b := by
  unfold setChan
  by_cases ha : a = p
  · subst ha
    by_cases hb : b = q
    · subst hb
      simp
    · simp [hb]
  · simp [ha]

theorem setChan_setChan (chan : P → P → List M) (p q : P) (ms ms' : List M) :
    setChan (setChan chan p q ms) p q ms' = setChan chan p q ms' := by
  funext a b
  simp only [setChan_apply]
  split_ifs <;> rfl

theorem setChan_comm {chan : P → P → List M} {p q p' q' : P} (h : ¬ (p = p' ∧ q = q')) (ms ms' : List M) :
    setChan (setChan chan p q ms) p' q' ms' = setChan (setChan chan p' q' ms') p q ms := by
  funext a b
  simp only [setChan_apply]
  split_ifs with h1 h2
  · exact absurd ⟨h2.1.symm.trans h1.1, h2.2.symm.trans h1.2⟩ h
  · rfl
  · rfl
  · rfl

/-- What an action of `p` does to the state `s` of `p` and to the channels. -/
def Effect (p : P) (s : S) (chan : P → P → List M) (s' : S) (chan' : P → P → List M) : Action P S M → Prop
  | .act f => s' = f s ∧ chan' = chan
  | .send q msg => s' = s ∧ chan' = setChan chan p q (chan p q ++ [msg s])
  | .recv q upd => ∃ m ms, chan q p = m :: ms ∧ s' = upd m s ∧ chan' = setChan chan q p ms

theorem step_iff {n n' : Net P S M} {p : P} : n.step p = some n' ↔ ∃ a rest s' chan',
    n.prog p = a :: rest ∧ Effect p (n.state p) n.chan s' chan' a ∧
      n' = ⟨Function.update n.prog p rest, Function.update n.state p s', chan'⟩ := by
  unfold Net.step
  cases hp : n.prog p with
  | nil => simp
  | cons a rest =>
    cases a with
    | act f =>
      simp only [Effect, Option.some.injEq, List.cons.injEq, eq_comm (b := n')]
      constructor
      · rintro rfl
        exact ⟨_, _, _, _, ⟨rfl, rfl⟩, ⟨rfl, rfl⟩, rfl⟩
      · rintro ⟨a, r, s', chan', ⟨rfl, rfl⟩, ⟨rfl, rfl⟩, rfl⟩
        rfl
    | send q msg =>
      simp only [Option.some.injEq, List.cons.injEq, eq_comm (b := n')]
      constructor
      · rintro rfl
        refine ⟨_, _, n.state p, _, ⟨rfl, rfl⟩, ⟨rfl, rfl⟩, ?_⟩
        rw [Function.update_eq_self]
      · rintro ⟨a, r, s', chan', ⟨rfl, rfl⟩, ⟨rfl, rfl⟩, rfl⟩
        rw [Function.update_eq_self]
    | recv q upd =>
      cases hc : n.chan q p with
      | nil =>
        simp only [hc, reduceCtorEq, false_iff]
        rintro ⟨a, r, s', chan', h, heff, rfl⟩
        cases h
        obtain ⟨m, ms, hm, _⟩ := heff
        rw [hc] at hm
        cases hm
      | cons m ms =>
        simp only [hc, Option.some.injEq, List.cons.injEq, eq_comm (b := n')]
        constructor
        · rintro rfl
          exact ⟨_, _, _, _, ⟨rfl, rfl⟩, ⟨m, ms, hc, rfl, rfl⟩, rfl⟩
        · rintro ⟨a, r, s', chan', ⟨rfl, rfl⟩, ⟨m', ms', hm, rfl, rfl⟩, rfl⟩
          rw [hc] at hm
          cases hm
          rfl

/-- The actions of two processes do not see each other, except that a message is there earlier. -/
theorem effect_diamond {p q : P} (hne : p ≠ q) {s s' t t' : S} {chan c₁ c₂ : P → P → List M} {a b : Action P S M}
    (ha : Effect p s chan s' c₁ a) (hb : Effect q t chan t' c₂ b) :
    ∃ c₃, Effect q t c₁ t' c₃ b ∧ Effect p s c₂ s' c₃ a := by
  cases a with
  | act f =>
    obtain ⟨rfl, rfl⟩ := ha
    exact ⟨c₂, hb, rfl, rfl⟩
  | send r msg =>
    obtain ⟨rfl, rfl⟩ := ha
    cases b with
    | act f =>
      obtain ⟨rfl, rfl⟩ := hb
      exact ⟨_, ⟨rfl, rfl⟩, rfl, rfl⟩
    | send r' msg' =>
      obtain ⟨rfl, rfl⟩ := hb
      refine ⟨_, ⟨rfl, rfl⟩, rfl, ?_⟩
      rw [setChan_apply, setChan_apply, if_neg (fun h => hne h.1.symm), if_neg (fun h => hne h.1),
        setChan_comm (fun h => hne h.1)]
    | recv r' upd =>
      obtain ⟨m, ms, hm, rfl, rfl⟩ := hb
      by_cases hsame : r' = p ∧ q = r
      · -- the message that is received is not the one that is sent
        obtain ⟨rfl, rfl⟩ := hsame
        refine ⟨setChan chan r' q (ms ++ [msg s']), ⟨m, ms ++ [msg s'], ?_, rfl, ?_⟩, rfl, ?_⟩
        · rw [setChan_apply, if_pos ⟨rfl, rfl⟩, hm]
          rfl
        · rw [setChan_setChan]
        · rw [setChan_setChan, setChan_apply, if_pos ⟨rfl, rfl⟩]
      · refine ⟨_, ⟨m, ms, ?_, rfl, rfl⟩, rfl, ?_⟩
        · rw [setChan_apply, if_neg hsame, hm]
        · rw [setChan_apply, if_neg (fun h => hsame ⟨h.1.symm, h.2.symm⟩),
            setChan_comm (fun h => hsame ⟨h.1.symm, h.2.symm⟩)]
  | recv r upd =>
    obtain ⟨m, ms, hm, rfl, rfl⟩ := ha
    cases b with
    | act f =>
      obtain ⟨rfl, rfl⟩ := hb
      exact ⟨_, ⟨rfl, rfl⟩, m, ms, hm, rfl, rfl⟩
    | send r' msg' =>
      obtain ⟨rfl, rfl⟩ := hb
      by_cases hsame : r = q ∧ p = r'
      · obtain ⟨rfl, rfl⟩ := hsame
        refine ⟨setChan chan r p (ms ++ [msg' t']), ⟨rfl, ?_⟩, m, ms ++ [msg' t'], ?_, rfl, ?_⟩
        · rw [setChan_setChan, setChan_apply, if_pos ⟨rfl, rfl⟩]
        · rw [setChan_apply, if_pos ⟨rfl, rfl⟩, hm]
          rfl
        · rw [setChan_setChan]
      · refine ⟨_, ⟨rfl, rfl⟩, m, ms, ?_, rfl, ?_⟩
        · rw [setChan_apply, if_neg hsame, hm]
        · rw [setChan_apply, if_neg (fun h => hsame ⟨h.1.symm, h.2.symm⟩),
            setChan_comm (fun h => hsame ⟨h.1, h.2⟩)]
    | recv r' upd' =>
      obtain ⟨m', ms', hm', rfl, rfl⟩ := hb
      refine ⟨_, ⟨m', ms', ?_, rfl, rfl⟩, m, ms, ?_, rfl, ?_⟩
      · rw [setChan_apply, if_neg (fun h => hne h.2.symm), hm']
      · rw [setChan_apply, if_neg (fun h => hne h.2), hm]
      · rw [setChan_comm (fun h => hne h.2)]

/-- The step of one process does not stop another from making its own. -/
theorem step_diamond {n n₁ n₂ : Net P S M} {p q : P} (hne : p ≠ q) (hp : n.step p = some n₁)
    (hq : n.step q = some n₂) : ∃ n₃, n₁.step q = some n₃ ∧ n₂.step p = some n₃ := by
  obtain ⟨a, rest, s', c₁, hprog, ha, rfl⟩ := step_iff.mp hp
  obtain ⟨b, rest', t', c₂, hprog', hb, rfl⟩ := step_iff.mp hq
  obtain ⟨c₃, hb', ha'⟩ := effect_diamond hne ha hb
  refine ⟨⟨Function.update (Function.update n.prog p rest) q rest',
    Function.update (Function.update n.state p s') q t', c₃⟩, step_iff.mpr ?_, step_iff.mpr ?_⟩
  · refine ⟨b, rest', t', c₃, ?_, ?_, rfl⟩
    · dsimp only
      rw [Function.update_of_ne hne.symm, hprog']
    · dsimp only
      rwa [Function.update_of_ne hne.symm]
  · refine ⟨a, rest, s', c₃, ?_, ?_, ?_⟩
    · dsimp only
      rw [Function.update_of_ne hne, hprog]
    · dsimp only
      rwa [Function.update_of_ne hne]
    · dsimp only
      rw [Function.update_comm hne, Function.update_comm hne]

/-! ## Runs -/

/-- `k` steps, of any processes in any order. -/
inductive Runs : ℕ → Net P S M → Net P S M → Prop
  | refl (n : Net P S M) : Runs 0 n n
  | step {k : ℕ} {n n' n'' : Net P S M} (p : P) (h : n.step p = some n') (hrest : Runs k n' n'') :
      Runs (k + 1) n n''

theorem Runs.trans {k l : ℕ} {n n' n'' : Net P S M} (h : Runs k n n') (h' : Runs l n' n'') :
    Runs (k + l) n n'' := by
  induction h with
  | refl => simpa using h'
  | @step k n n₁ n₂ p hp _ ih =>
    rw [Nat.add_right_comm]
    exact Runs.step p hp (ih h')

theorem Runs.single {n n' : Net P S M} (p : P) (h : n.step p = some n') : Runs 1 n n' :=
  Runs.step p h (Runs.refl n')

/-- A step in another order loses nothing of a run that ends. -/
theorem Runs.rest_step {k : ℕ} {n n' fin : Net P S M} (h : Runs k n fin) (hfin : ∀ p, fin.step p = none) {p : P}
    (hp : n.step p = some n') : ∃ l, k = l + 1 ∧ Runs l n' fin := by
  induction h generalizing n' p with
  | refl fin =>
    rw [hfin p] at hp
    cases hp
  | @step k n n₁ fin q hq hrest ih =>
    by_cases hpq : p = q
    · subst hpq
      obtain rfl := Option.some.inj (hq.symm.trans hp)
      exact ⟨k, rfl, hrest⟩
    · obtain ⟨n₃, hq₃, hp₃⟩ := step_diamond hpq hp hq
      obtain ⟨l, rfl, hl⟩ := ih hfin hp₃
      exact ⟨l + 1, rfl, Runs.step q hq₃ hl⟩

/-- If one run ends, every run can be continued to the same end, with what is left of the steps. -/
theorem Runs.rest {k l : ℕ} {n n' fin : Net P S M} (h : Runs k n fin) (hfin : ∀ p, fin.step p = none)
    (h' : Runs l n n') : ∃ r, k = l + r ∧ Runs r n' fin := by
  induction h' generalizing k with
  | refl n => exact ⟨k, by omega, h⟩
  | step p hp _ ih =>
    obtain ⟨j, rfl, hj⟩ := h.rest_step hfin hp
    obtain ⟨r, rfl, hr⟩ := ih hj
    exact ⟨r, by omega, hr⟩

/-- Whatever the state and the message, the action leads to a state that is related. -/
def Action.Keeps (R : S → S → Prop) : Action P S M → Prop
  | .act f => ∀ s, R s (f s)
  | .send _ _ => True
  | .recv _ upd => ∀ m s, R s (upd m s)

/-- What every action keeps, a run keeps. -/
theorem Runs.keeps {R : S → S → Prop} (hrefl : ∀ s, R s s) (htrans : ∀ s t u, R s t → R t u → R s u) {k : ℕ}
    {n n' : Net P S M} (h : Runs k n n') (hn : ∀ p, ∀ a ∈ n.prog p, a.Keeps R) :
    (∀ p, R (n.state p) (n'.state p)) ∧ ∀ p, ∀ a ∈ n'.prog p, a.Keeps R := by
  induction h with
  | refl n => exact ⟨fun p => hrefl _, hn⟩
  | @step k n n₁ n₂ p hp _ ih =>
    obtain ⟨a, rest, s', chan', hprog, heff, rfl⟩ := step_iff.mp hp
    have ha : a.Keeps R := hn p a (by rw [hprog]; exact List.mem_cons_self)
    have hs' : R (n.state p) s' := by
      cases a with
      | act f => exact heff.1 ▸ ha (n.state p)
      | send q msg => exact heff.1 ▸ hrefl (n.state p)
      | recv q upd =>
        obtain ⟨m, ms, _, rfl, _⟩ := heff
        exact ha m (n.state p)
    dsimp only at ih
    obtain ⟨hstate, hprog'⟩ := ih fun q x hx => by
      by_cases hq : q = p
      · subst hq
        rw [Function.update_self] at hx
        exact hn q x (by rw [hprog]; exact List.mem_cons_of_mem a hx)
      · rw [Function.update_of_ne hq] at hx
        exact hn q x hx
    refine ⟨fun q => ?_, hprog'⟩
    have hq := hstate q
    by_cases hqp : q = p
    · subst hqp
      rw [Function.update_self] at hq
      exact htrans _ _ _ hs' hq
    · rwa [Function.update_of_ne hqp] at hq

/-! ## Global events -/

/-- What happens at one process, or between two. -/
inductive Event (P S M : Type)
  | act (p : P) (f : S → S)
  | comm (p q : P) (msg : S → M) (upd : M → S → S)

/-- A process does not send to itself. -/
def Event.Proper : Event P S M → Prop
  | .act _ _ => True
  | .comm p q _ _ => p ≠ q

/-- The part of a process in an event. -/
def Event.project (r : P) : Event P S M → List (Action P S M)
  | .act p f => if p = r then [.act f] else []
  | .comm p q msg upd => if p = r then [.send q msg] else if q = r then [.recv p upd] else []

def Event.run : Event P S M → (P → S) → P → S
  | .act p f, s => Function.update s p (f (s p))
  | .comm p q msg upd, s => Function.update s q (upd (msg (s p)) (s q))

def runEvents (es : List (Event P S M)) (s : P → S) : P → S := es.foldl (fun s e => e.run s) s

/-- Every process has its part of the events before it and no message is under way. -/
def start (es : List (Event P S M)) (s : P → S) : Net P S M :=
  ⟨fun r => es.flatMap (Event.project r), s, fun _ _ => []⟩

theorem step_start_nil (s : P → S) (p : P) : (start ([] : List (Event P S M)) s).step p = none := rfl

/-- The events one after the other are a run of the processes. -/
theorem runs_start {es : List (Event P S M)} (h : ∀ e ∈ es, e.Proper) (s : P → S) :
    ∃ k, Runs k (start es s) (start [] (runEvents es s)) := by
  induction es generalizing s with
  | nil => exact ⟨0, Runs.refl _⟩
  | cons e es ih =>
    rw [List.forall_mem_cons] at h
    obtain ⟨k, hk⟩ := ih h.2 (e.run s)
    suffices hfirst : ∃ j, Runs j (start (e :: es) s) (start es (e.run s)) by
      obtain ⟨j, hj⟩ := hfirst
      exact ⟨j + k, hj.trans hk⟩
    cases e with
    | act p f =>
      refine ⟨1, Runs.single p (step_iff.mpr ⟨.act f, es.flatMap (Event.project p), _, _, ?_, ⟨rfl, rfl⟩, ?_⟩)⟩
      · simp [start, Event.project]
      · refine Net.ext (funext fun r => ?_) rfl rfl
        by_cases hr : p = r
        · subst hr
          simp [start]
        · simp [start, Event.project, hr, Function.update_of_ne (Ne.symm hr)]
    | comm p q msg upd =>
      have hpq : p ≠ q := h.1
      -- the message is sent and then received
      have hsend := (step_iff (n := start (.comm p q msg upd :: es) s) (p := p)).mpr
        ⟨.send q msg, es.flatMap (Event.project p), _, _, by simp [start, Event.project], ⟨rfl, rfl⟩, rfl⟩
      refine ⟨2, Runs.step p hsend (Runs.single q (step_iff.mpr
        ⟨.recv p upd, es.flatMap (Event.project q), _, _, ?_, ⟨msg (s p), [], ?_, rfl, rfl⟩, ?_⟩))⟩
      · simp [start, Event.project, hpq, Function.update_of_ne (Ne.symm hpq)]
      · simp [start, setChan_apply]
      · refine Net.ext (funext fun r => ?_) (funext fun r => ?_) ?_
        · by_cases hq : r = q
          · subst hq
            simp [start]
          · by_cases hp : r = p
            · subst hp
              simp [start, hq]
            · simp [start, Event.project, hq, hp, Ne.symm hp, Ne.symm hq]
        · by_cases hq : r = q
          · subst hq
            simp [start, Event.run, Ne.symm hpq]
          · simp [start, Event.run, hq]
        · funext a b
          simp [start, setChan_apply]

/-- Whatever the order of steps, the processes run to the state that the events describe: a run is
never longer than theirs, and never stuck before that state. -/
theorem runs_project {es : List (Event P S M)} (h : ∀ e ∈ es, e.Proper) (s : P → S) :
    ∃ k, ∀ l n, Runs l (start es s) n → ∃ r, k = l + r ∧ Runs r n (start [] (runEvents es s)) := by
  obtain ⟨k, hk⟩ := runs_start h s
  exact ⟨k, fun l n hn => hk.rest (step_start_nil _) hn⟩

end Step

/-! ## Idle actions -/

/-- A program without some of its actions that do nothing. -/
inductive Thins : List (Action P S M) → List (Action P S M) → Prop
  | nil : Thins [] []
  | keep (a : Action P S M) {as bs : List (Action P S M)} (h : Thins as bs) : Thins (a :: as) (a :: bs)
  | drop {as bs : List (Action P S M)} (h : Thins as bs) : Thins (.act (fun s => s) :: as) bs

theorem Thins.refl (as : List (Action P S M)) : Thins as as := by
  induction as with
  | nil => exact .nil
  | cons a as ih => exact .keep a ih

/-- One more action that does nothing. -/
theorem Thins.insert {as bs cs : List (Action P S M)} (h : Thins (as ++ bs) cs) : Thins (as ++ .act (fun s => s) :: bs) cs := by
  induction as generalizing cs with
  | nil => exact .drop h
  | cons a as ih =>
    rw [List.cons_append] at h
    cases h with
    | keep _ h => exact .keep a (ih h)
    | drop h => exact .drop (ih h)

section
variable [DecidableEq P]

/-- The processes do without such actions what they do with them. -/
theorem exists_thinned {es : List (Event P S M)} (hproper : ∀ e ∈ es, e.Proper) {prog : P → List (Action P S M)}
    (h : ∀ r, Thins (es.flatMap (Event.project r)) (prog r)) : ∃ es' : List (Event P S M), (∀ e ∈ es', e.Proper) ∧
      (∀ r, es'.flatMap (Event.project r) = prog r) ∧ ∀ s, runEvents es' s = runEvents es s := by
  induction es generalizing prog with
  | nil =>
    refine ⟨[], fun e he => absurd he List.not_mem_nil, fun r => ?_, fun s => rfl⟩
    have hr := h r
    rw [List.flatMap_nil] at hr ⊢
    generalize prog r = as at hr
    cases hr
    rfl
  | cons e es ih =>
    rw [List.forall_mem_cons] at hproper
    simp only [List.flatMap_cons] at h
    cases e with
    | act p f =>
      -- only `p` has a part in the event
      have hother : ∀ r, r ≠ p → Thins (es.flatMap (Event.project r)) (prog r) := by
        intro r hr
        have hrest := h r
        rwa [Event.project, if_neg hr.symm, List.nil_append] at hrest
      have hp := h p
      rw [Event.project, if_pos rfl, List.singleton_append] at hp
      generalize hprog : prog p = as at hp
      cases hp with
      | @keep _ _ bs hp =>
        have hnext : ∀ r, Thins (es.flatMap (Event.project r)) (Function.update prog p bs r) := by
          intro r
          obtain rfl | hr := eq_or_ne r p
          · rwa [Function.update_self]
          · rw [Function.update_of_ne hr]
            exact hother r hr
        obtain ⟨es', hproper', hproject, hrun⟩ := ih hproper.2 hnext
        refine ⟨.act p f :: es', ?_, fun r => ?_, fun s => hrun _⟩
        · exact List.forall_mem_cons.mpr ⟨trivial, hproper'⟩
        · rw [List.flatMap_cons, hproject, Event.project]
          obtain rfl | hr := eq_or_ne r p
          · rw [if_pos rfl, Function.update_self, hprog]
            rfl
          · rw [if_neg hr.symm, Function.update_of_ne hr]
            rfl
      | drop hp =>
        have hnext : ∀ r, Thins (es.flatMap (Event.project r)) (prog r) := by
          intro r
          obtain rfl | hr := eq_or_ne r p
          · rwa [hprog]
          · exact hother r hr
        obtain ⟨es', hproper', hproject, hrun⟩ := ih hproper.2 hnext
        refine ⟨es', hproper', hproject, fun s => (hrun s).trans ?_⟩
        have hidle : (Event.act p (fun s => s) : Event P S M).run s = s := Function.update_eq_self p s
        exact congrArg (runEvents es) hidle.symm
    | comm p q msg upd =>
      have hpq : p ≠ q := hproper.1
      have hother : ∀ r, r ≠ p → r ≠ q → Thins (es.flatMap (Event.project r)) (prog r) := by
        intro r hrp hrq
        have hrest := h r
        rwa [Event.project, if_neg hrp.symm, if_neg hrq.symm, List.nil_append] at hrest
      have hp := h p
      have hq := h q
      rw [Event.project, if_pos rfl, List.singleton_append] at hp
      rw [Event.project, if_neg hpq, if_pos rfl, List.singleton_append] at hq
      generalize hprogp : prog p = as at hp
      generalize hprogq : prog q = bs at hq
      cases hp with
      | @keep _ _ as' hp =>
        cases hq with
        | @keep _ _ bs' hq =>
          have hnext : ∀ r, Thins (es.flatMap (Event.project r)) (Function.update (Function.update prog p as') q bs' r) := by
            intro r
            obtain rfl | hrq := eq_or_ne r q
            · rwa [Function.update_self]
            · rw [Function.update_of_ne hrq]
              obtain rfl | hrp := eq_or_ne r p
              · rwa [Function.update_self]
              · rw [Function.update_of_ne hrp]
                exact hother r hrp hrq
          obtain ⟨es', hproper', hproject, hrun⟩ := ih hproper.2 hnext
          refine ⟨.comm p q msg upd :: es', ?_, fun r => ?_, fun s => hrun _⟩
          · exact List.forall_mem_cons.mpr ⟨hproper.1, hproper'⟩
          · rw [List.flatMap_cons, hproject, Event.project]
            obtain rfl | hrp := eq_or_ne r p
            · rw [if_pos rfl, Function.update_of_ne hpq, Function.update_self, hprogp]
              rfl
            · rw [if_neg hrp.symm]
              obtain rfl | hrq := eq_or_ne r q
              · rw [if_pos rfl, Function.update_self, hprogq]
                rfl
              · rw [if_neg hrq.symm, Function.update_of_ne hrq, Function.update_of_ne hrp]
                rfl

end

end Network
