import Mathlib.Computability.StateTransition
import Mathlib.Data.Nat.Notation

/-! # Loops as rounds, and runs of calls

A loop is a partial step, `none` when its condition fails. It ends if an invariant holds at the start
and a measure falls with every round; a loop with enough fuel is then the loop itself.

A run makes one call after another, as long as they return. -/
namespace Rounds
open Relation StateTransition
set_option autoImplicit false

variable {σ : Type*} {step : σ → Option σ} {P : σ → Prop}

/-- What every round keeps, the loop keeps. -/
theorem reaches_invariant (hstep : ∀ s t, P s → step s = some t → P t) {s t : σ} (h : Reaches step s t) (hs : P s) :
    P t := by
  induction h with
  | refl => exact hs
  | tail _ hxy ih => exact hstep _ _ ih hxy

/-- At most `fuel` rounds. -/
def fueled (step : σ → Option σ) : ℕ → σ → σ
  | 0, s => s
  | fuel + 1, s => match step s with
    | none => s
    | some t => fueled step fuel t

theorem fueled_mem_eval (measure : σ → ℕ) (hstep : ∀ s t, P s → step s = some t → P t ∧ measure t < measure s)
    {fuel : ℕ} {s : σ} (hs : P s) (hfuel : measure s ≤ fuel) : fueled step fuel s ∈ eval step s := by
  rw [mem_eval]
  induction fuel generalizing s with
  | zero =>
    refine ⟨ReflTransGen.refl, ?_⟩
    show step s = none
    cases h : step s with
    | none => rfl
    | some t =>
      have hlt := (hstep s t hs h).2
      omega
  | succ fuel ih =>
    rw [fueled]
    cases h : step s with
    | none => exact ⟨ReflTransGen.refl, h⟩
    | some t =>
      obtain ⟨ht, hlt⟩ := hstep s t hs h
      obtain ⟨hrun, hstop⟩ := ih ht (by omega)
      exact ⟨ReflTransGen.head h hrun, hstop⟩

/-! ## Runs of calls -/

variable {α : Type*} {call : σ → α → Option σ} {P' : σ → Prop} {Q Q' : σ → α → Prop} {s : σ} {as : List α}

/-- `P` holds in every state of the run, and `Q` of every call made. -/
def Throughout (call : σ → α → Option σ) (P : σ → Prop) (Q : σ → α → Prop) : σ → List α → Prop
  | s, [] => P s
  | s, a :: as => P s ∧ Q s a ∧ ∀ t, call s a = some t → Throughout call P Q t as

theorem Throughout.start (h : Throughout call P Q s as) : P s := by
  cases as with
  | nil => exact h
  | cons a as => exact h.1

/-- Two properties of a run agree if they do in every state of an invariant, which the calls keep that
have the second property, and if a call with the first one that leads to a good state has the second. -/
theorem throughout_iff {I : σ → Prop} (hP : ∀ s, I s → (P s ↔ P' s))
    (hkeep : ∀ s a, I s → Q' s a → Q s a ∧ ∀ t, call s a = some t → I t)
    (hgood : ∀ s a, I s → Q s a → (∀ t, call s a = some t → P t) → Q' s a) (hs : I s) :
    Throughout call P Q s as ↔ Throughout call P' Q' s as := by
  induction as generalizing s with
  | nil => exact hP s hs
  | cons a as ih =>
    constructor
    · rintro ⟨hPs, hQ, hrest⟩
      have hQ' := hgood s a hs hQ fun t ht => (hrest t ht).start
      exact ⟨(hP s hs).mp hPs, hQ', fun t ht => (ih ((hkeep s a hs hQ').2 t ht)).mp (hrest t ht)⟩
    · rintro ⟨hPs, hQ', hrest⟩
      obtain ⟨hQ, hI⟩ := hkeep s a hs hQ'
      exact ⟨(hP s hs).mpr hPs, hQ, fun t ht => (ih (hI t ht)).mpr (hrest t ht)⟩

end Rounds
