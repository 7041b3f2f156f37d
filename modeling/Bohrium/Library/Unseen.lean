import Mathlib.Data.Nat.Notation

/-! # Computations that do not see a part of their state

A computation with errors and a state respects a relation of states if related states give one result and
related states again. What is made of computations that respect a relation does so, and so does a run of
one call after another. -/
namespace Unseen
set_option autoImplicit false

variable {σ ε α β κ : Type}

/-- The state is kept when an error is raised. -/
def Comp (σ ε α : Type) := σ → Except ε α × σ

namespace Comp

def pure (a : α) : Comp σ ε α := fun s => (.ok a, s)

def throw (e : ε) : Comp σ ε α := fun s => (.error e, s)

def bind (m : Comp σ ε α) (f : α → Comp σ ε β) : Comp σ ε β := fun s =>
  match m s with
  | (.ok a, s') => f a s'
  | (.error e, s') => (.error e, s')

instance : Monad (Comp σ ε) where
  pure := pure
  bind := bind

end Comp

theorem Comp.bind_pure_state (m : Comp σ ε α) (f : α → β) (s : σ) : ((m >>= fun a => pure (f a)) s).2 = (m s).2 := by
  show (Comp.bind m (fun a => Comp.pure (f a)) s).2 = _
  unfold Comp.bind
  cases m s with
  | mk x s' => cases x <;> rfl

/-- Related states give one result, and related states again. -/
def Respects (r : σ → σ → Prop) (m : Comp σ ε α) : Prop :=
  ∀ s t, r s t → (m s).1 = (m t).1 ∧ r (m s).2 (m t).2

variable {r : σ → σ → Prop}

theorem respects_pure (a : α) : Respects r (pure a : Comp σ ε α) := fun _ _ h => ⟨rfl, h⟩

theorem respects_throw (e : ε) : Respects r (Comp.throw e : Comp σ ε α) := fun _ _ h => ⟨rfl, h⟩

theorem Respects.bind {m : Comp σ ε α} {f : α → Comp σ ε β} (hm : Respects r m) (hf : ∀ a, Respects r (f a)) :
    Respects r (m >>= f) := by
  intro s t h
  obtain ⟨heq, hr⟩ := hm s t h
  show (Comp.bind m f s).1 = (Comp.bind m f t).1 ∧ r (Comp.bind m f s).2 (Comp.bind m f t).2
  unfold Comp.bind
  cases hs : m s with
  | mk x s' =>
    cases ht : m t with
    | mk y t' =>
      rw [hs, ht] at heq hr
      dsimp only at heq hr
      subst heq
      cases x with
      | ok a => exact hf a s' t' hr
      | error e => exact ⟨rfl, hr⟩

theorem Respects.ite {c : Prop} [Decidable c] {m m' : Comp σ ε α} (hm : Respects r m) (hm' : Respects r m') :
    Respects r (if c then m else m') := by
  split
  · exact hm
  · exact hm'

/-- The results of one call after the other. -/
def results (call : κ → Comp σ ε α) : List κ → σ → List (Except ε α)
  | [], _ => []
  | c :: cs, s => (call c s).1 :: results call cs (call c s).2

/-- The state after the calls. -/
def after (call : κ → Comp σ ε α) : List κ → σ → σ
  | [], s => s
  | c :: cs, s => after call cs (call c s).2

theorem results_eq {call : κ → Comp σ ε α} (h : ∀ c, Respects r (call c)) (cs : List κ) {s t : σ} (hr : r s t) :
    results call cs s = results call cs t := by
  induction cs generalizing s t with
  | nil => rfl
  | cons c cs ih =>
    obtain ⟨heq, hr'⟩ := h c s t hr
    rw [results, results, heq, ih hr']

end Unseen
