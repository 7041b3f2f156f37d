import Bohrium.Bxx.Bridge
import Mathlib.Data.List.Induction

/-! # The life of a base

A monitor for one base that reads the log: after `new` the base may be used; when its last reference
goes it gets one `BH_FREE`, unless its data is external, then one `BH_DISCARD`; once a batch that holds
the `BH_DISCARD` is executed, the base may be deleted. Any other order is `wrong`. -/
namespace Bohrium.Bxx
set_option autoImplicit false

def uses (i : BhInstruction) (b : BhBase) : Bool :=
  decide (i.operand0.base = some b ∨ i.operand1.base = some b ∨ i.operand2.base = some b)

/-- The batch holds the `BH_DISCARD` of `b`. -/
def discards (batch : List BhInstruction) (b : BhBase) : Bool :=
  batch.any fun i => decide (i.opcode = .discard) && uses i b

inductive Phase
  | absent
  | live
  | releasing (external : Bool)
  | freed
  | discarded (external : Bool)
  | executed (external : Bool)
  | deleted (external : Bool)
  | wrong
  deriving DecidableEq, Repr

namespace Phase

/-- An instruction that uses the base. -/
def use (p : Phase) (opcode : BhOpcode) : Phase :=
  if opcode = .free then
    if p = .releasing false then .freed else .wrong
  else if opcode = .discard then
    match p with
    | .freed => .discarded false
    | .releasing true => .discarded true
    | _ => .wrong
  else if p = .live then .live else .wrong

def next (b : BhBase) (p : Phase) : Event → Phase
  | .create c => if c = b then (if p = .absent then .live else .wrong) else p
  | .release c external => if c = b then (if p = .live then .releasing external else .wrong) else p
  | .instr i => if uses i b then p.use i.opcode else p
  | .execute batch =>
    match p with
    | .discarded external => if discards batch b then .executed external else p
    | _ => p
  | .delete c =>
    if c = b then
      match p with
      | .executed external => .deleted external
      | _ => .wrong
    else p

end Phase

def phase (b : BhBase) (log : List Event) : Phase := log.foldl (Phase.next b) .absent

theorem phase_append (b : BhBase) (log events : List Event) :
    phase b (log ++ events) = events.foldl (Phase.next b) (phase b log) := List.foldl_append

/-! ## What the phases mean -/

/-- An event that is not about `b`. -/
def Event.Silent (b : BhBase) : Event → Prop
  | .create c | .release c _ | .delete c => c ≠ b
  | .instr i => uses i b = false
  | .execute _ => True

/-- An event in the life of `b` before its last reference goes. -/
def Event.Harmless (b : BhBase) : Event → Prop
  | .create _ => True
  | .instr i => uses i b = true → i.opcode ≠ .free ∧ i.opcode ≠ .discard
  | .release c _ | .delete c => c ≠ b
  | .execute _ => True

def Event.isFree (b : BhBase) : Event → Bool
  | .instr i => decide (i.opcode = .free) && uses i b
  | _ => false

/-- Before its `BH_DISCARD` a base is neither discarded nor deleted. -/
def Event.Early (b : BhBase) : Event → Prop
  | .instr i => uses i b = true → i.opcode ≠ .discard
  | .delete c => c ≠ b
  | _ => True

/-- `i` is the `BH_DISCARD` of `b` and `before` is what happened until then: the last reference went,
and there was one `BH_FREE`, or none for external data. -/
structure Discarded (b : BhBase) (external : Bool) (before : List Event) (i : BhInstruction) : Prop where
  opcode : i.opcode = .discard
  operand : uses i b = true
  released : .release b external ∈ before
  freed : before.countP (Event.isFree b) = if external then 0 else 1
  early : ∀ e ∈ before, e.Early b

/-- The log of a base in each phase. -/
def Trail (b : BhBase) : Phase → List Event → Prop
  | .absent, log => ∀ e ∈ log, e.Silent b
  | .live, log => ∀ e ∈ log, e.Harmless b
  | .releasing external, log =>
    .release b external ∈ log ∧ log.countP (Event.isFree b) = 0 ∧ ∀ e ∈ log, e.Early b
  | .freed, log =>
    .release b false ∈ log ∧ log.countP (Event.isFree b) = 1 ∧ ∀ e ∈ log, e.Early b
  | .discarded external, log =>
    ∃ before i after, log = before ++ .instr i :: after ∧ Discarded b external before i ∧
      ∀ e ∈ after, e.Silent b
  | .executed external, log =>
    ∃ before i after, log = before ++ .instr i :: after ∧ Discarded b external before i ∧
      (∀ e ∈ after, e.Silent b) ∧ ∃ batch, .execute batch ∈ after ∧ discards batch b = true
  | .deleted external, log =>
    ∃ before i after rest, log = before ++ .instr i :: (after ++ .delete b :: rest) ∧
      Discarded b external before i ∧ (∀ e ∈ after, e.Silent b) ∧
      (∃ batch, .execute batch ∈ after ∧ discards batch b = true) ∧ ∀ e ∈ rest, e.Silent b
  | .wrong, _ => True

section

variable {b : BhBase} {e : Event} {log : List Event}

theorem Event.Silent.harmless (h : e.Silent b) : e.Harmless b := by
  cases e with
  | create c => trivial
  | release c external => exact h
  | instr i => exact fun hu => absurd hu (by simp [show uses i b = false from h])
  | execute batch => trivial
  | delete c => exact h

theorem Event.Harmless.early (h : e.Harmless b) : e.Early b := by
  cases e with
  | instr i => exact fun hu => (h hu).2
  | delete c => exact h
  | create c => trivial
  | release c external => trivial
  | execute batch => trivial

theorem Event.Harmless.not_isFree (h : e.Harmless b) : e.isFree b = false := by
  cases e with
  | instr i =>
    by_cases hu : uses i b = true
    · simp [isFree, hu, (h hu).1]
    · simp [isFree, hu]
  | delete c => rfl
  | create c => rfl
  | release c external => rfl
  | execute batch => rfl

theorem countP_isFree_of_harmless (h : ∀ e ∈ log, e.Harmless b) : log.countP (Event.isFree b) = 0 := by
  apply List.countP_eq_zero.mpr
  intro e he
  simp [(h e he).not_isFree]

/-- One more event that is not about `b`. -/
theorem trail_silent {p : Phase} (h : Trail b p log) (he : e.Silent b) : Trail b p (log ++ [e]) := by
  have happend : ∀ {Q : Event → Prop}, (∀ e ∈ log, Q e) → Q e → ∀ e' ∈ log ++ [e], Q e' := by
    intro Q hlog hQ e' he'
    obtain he' | he' := List.mem_append.mp he'
    · exact hlog e' he'
    · exact List.mem_singleton.mp he' ▸ hQ
  have hcount : (log ++ [e]).countP (Event.isFree b) = log.countP (Event.isFree b) := by
    simp [List.countP_append, he.harmless.not_isFree]
  cases p with
  | absent => exact happend h he
  | live => exact happend h he.harmless
  | releasing external =>
    obtain ⟨hrel, hfree, hearly⟩ := h
    exact ⟨List.mem_append_left _ hrel, hcount.trans hfree, happend hearly he.harmless.early⟩
  | freed =>
    obtain ⟨hrel, hfree, hearly⟩ := h
    exact ⟨List.mem_append_left _ hrel, hcount.trans hfree, happend hearly he.harmless.early⟩
  | discarded external =>
    obtain ⟨before, i, after, rfl, hdisc, hafter⟩ := h
    refine ⟨before, i, after ++ [e], by simp, hdisc, fun e' he' => ?_⟩
    obtain he' | he' := List.mem_append.mp he'
    · exact hafter e' he'
    · exact List.mem_singleton.mp he' ▸ he
  | executed external =>
    obtain ⟨before, i, after, rfl, hdisc, hafter, batch, hbatch, hin⟩ := h
    refine ⟨before, i, after ++ [e], by simp, hdisc, fun e' he' => ?_, batch,
      List.mem_append_left _ hbatch, hin⟩
    obtain he' | he' := List.mem_append.mp he'
    · exact hafter e' he'
    · exact List.mem_singleton.mp he' ▸ he
  | deleted external =>
    obtain ⟨before, i, after, rest, rfl, hdisc, hafter, hbatch, hrest⟩ := h
    refine ⟨before, i, after, rest ++ [e], by simp, hdisc, hafter, hbatch, fun e' he' => ?_⟩
    obtain he' | he' := List.mem_append.mp he'
    · exact hrest e' he'
    · exact List.mem_singleton.mp he' ▸ he
  | wrong => trivial

theorem trail_use {p : Phase} {i : BhInstruction} (h : Trail b p log) (hu : uses i b = true) :
    Trail b (p.use i.opcode) (log ++ [.instr i]) := by
  unfold Phase.use
  split_ifs with hfree hp hdiscard hlive
  · -- the one `BH_FREE`
    subst hp
    obtain ⟨hrel, hcount, hearly⟩ := h
    refine ⟨List.mem_append_left _ hrel, ?_, fun e he => ?_⟩
    · simp [List.countP_append, hcount, Event.isFree, hfree, hu]
    · obtain he | he := List.mem_append.mp he
      · exact hearly e he
      · rw [List.mem_singleton.mp he]
        simp [Event.Early, hfree]
  · trivial
  · -- the one `BH_DISCARD`
    split
    · obtain ⟨hrel, hcount, hearly⟩ := h
      exact ⟨log, i, [], rfl, ⟨hdiscard, hu, hrel, by simpa using hcount, hearly⟩, fun e he => by cases he⟩
    · obtain ⟨hrel, hcount, hearly⟩ := h
      exact ⟨log, i, [], rfl, ⟨hdiscard, hu, hrel, by simpa using hcount, hearly⟩, fun e he => by cases he⟩
    · trivial
  · subst hlive
    intro e he
    obtain he | he := List.mem_append.mp he
    · exact h e he
    · rw [List.mem_singleton.mp he]
      exact fun _ => ⟨hfree, hdiscard⟩
  · trivial

theorem trail_next {p : Phase} (h : Trail b p log) (e : Event) : Trail b (p.next b e) (log ++ [e]) := by
  cases e with
  | create c =>
    by_cases hc : c = b
    · subst hc
      simp only [Phase.next, if_true]
      split_ifs with hp
      · subst hp
        intro e he
        obtain he | he := List.mem_append.mp he
        · exact (h e he).harmless
        · rw [List.mem_singleton.mp he]
          trivial
      · trivial
    · simp only [Phase.next, if_neg hc]
      exact trail_silent h hc
  | release c external =>
    by_cases hc : c = b
    · subst hc
      simp only [Phase.next, if_true]
      split_ifs with hp
      · subst hp
        refine ⟨List.mem_append_right _ List.mem_cons_self, ?_, fun e he => ?_⟩
        · rw [List.countP_append, countP_isFree_of_harmless h]
          rfl
        · obtain he | he := List.mem_append.mp he
          · exact (h e he).early
          · rw [List.mem_singleton.mp he]
            trivial
      · trivial
    · simp only [Phase.next, if_neg hc]
      exact trail_silent h hc
  | instr i =>
    by_cases hu : uses i b = true
    · simp only [Phase.next, if_pos hu]
      exact trail_use h hu
    · simp only [Phase.next, if_neg hu]
      exact trail_silent h (by simpa [Event.Silent] using hu)
  | execute batch =>
    cases p with
    | discarded external =>
      simp only [Phase.next]
      split_ifs with hd
      · obtain ⟨before, i, after, rfl, hdisc, hafter⟩ := h
        refine ⟨before, i, after ++ [.execute batch], by simp, hdisc, fun e he => ?_, batch,
          List.mem_append_right _ List.mem_cons_self, hd⟩
        obtain he | he := List.mem_append.mp he
        · exact hafter e he
        · rw [List.mem_singleton.mp he]
          trivial
      · exact trail_silent h trivial
    | absent => exact trail_silent h trivial
    | live => exact trail_silent h trivial
    | releasing external => exact trail_silent h trivial
    | freed => exact trail_silent h trivial
    | executed external => exact trail_silent h trivial
    | deleted external => exact trail_silent h trivial
    | wrong => trivial
  | delete c =>
    by_cases hc : c = b
    · subst hc
      simp only [Phase.next, if_true]
      split
      · obtain ⟨before, i, after, rfl, hdisc, hafter, hbatch⟩ := h
        exact ⟨before, i, after, [], by simp, hdisc, hafter, hbatch, fun e he => by cases he⟩
      · trivial
    · simp only [Phase.next, if_neg hc]
      exact trail_silent h hc

/-- The monitor reads the log correctly. -/
theorem trail_phase (b : BhBase) (log : List Event) : Trail b (phase b log) log := by
  induction log using List.reverseRecOn with
  | nil => exact fun e he => by cases he
  | append_singleton log e ih =>
    rw [phase_append]
    exact trail_next ih e

end

end Bohrium.Bxx
