import Bohrium.Library.Reorder
import Mathlib.Logic.Function.Basic

/-! # Jobs in parallel

Some workers each have a program, a list of steps on one memory, which they take in any interleaving. If steps of
different workers commute, the memory is at every time what the steps taken so far make of it, the workers one
after the other. -/
namespace Jobs
set_option autoImplicit false

variable {M : Type*}

def exec (steps : List (M → M)) (m : M) : M := steps.foldl (fun m f => f m) m

/-- The programs of the first `c` workers, one after the other. -/
def inOrder (programs : ℕ → List (M → M)) (c : ℕ) (m : M) : M := (List.range c).foldl (fun m i => exec (programs i) m) m

theorem exec_append (fs gs : List (M → M)) (m : M) : exec (fs ++ gs) m = exec gs (exec fs m) := List.foldl_append

theorem exec_comm {f : M → M} {steps : List (M → M)} (h : ∀ g ∈ steps, ∀ m, g (f m) = f (g m)) (m : M) :
    exec steps (f m) = f (exec steps m) :=
  Reorder.foldl_comm (fun (m : M) (g : M → M) => g m) f steps h m

theorem inOrder_succ (programs : ℕ → List (M → M)) (c : ℕ) (m : M) :
    inOrder programs (c + 1) m = exec (programs c) (inOrder programs c m) := by
  rw [inOrder, List.range_succ, List.foldl_append]
  rfl

theorem inOrder_congr {p q : ℕ → List (M → M)} {c : ℕ} (h : ∀ i < c, p i = q i) (m : M) : inOrder p c m = inOrder q c m := by
  induction c with
  | zero => rfl
  | succ c ih => rw [inOrder_succ, inOrder_succ, ih fun i hi => h i (Nat.lt_succ_of_lt hi), h c (Nat.lt_succ_self c)]

theorem inOrder_eq_exec (programs : ℕ → List (M → M)) (c : ℕ) (m : M) :
    inOrder programs c m = exec ((List.range c).flatMap programs) m := by
  rw [inOrder, exec, List.foldl_flatMap]
  rfl

/-- One more step of one worker. -/
theorem inOrder_step {programs : ℕ → List (M → M)} {c i : ℕ} (hi : i < c) {f : M → M}
    (hf : ∀ j < c, j ≠ i → ∀ g ∈ programs j, ∀ m, g (f m) = f (g m)) (m : M) :
    inOrder (Function.update programs i (programs i ++ [f])) c m = f (inOrder programs c m) := by
  induction c with
  | zero => exact absurd hi (Nat.not_lt_zero i)
  | succ c ih =>
    rw [inOrder_succ, inOrder_succ]
    obtain hlt | rfl := Nat.lt_succ_iff_lt_or_eq.mp hi
    · rw [ih hlt fun j hj => hf j (Nat.lt_succ_of_lt hj), Function.update_of_ne hlt.ne']
      exact exec_comm (hf c (Nat.lt_succ_self c) hlt.ne') _
    · have hrest : inOrder (Function.update programs i (programs i ++ [f])) i m = inOrder programs i m :=
        inOrder_congr (fun j hj => Function.update_of_ne hj.ne _ _) m
      rw [hrest, Function.update_self, exec_append]
      rfl

/-! ## Jobs -/

/-- What each worker does, once it has looked at the memory. -/
abbrev Job (M : Type*) := ℕ → M → List (M → M)

/-- Steps of different workers commute, and what one sees at its start is not changed by the others. -/
structure Independent (c : ℕ) (job : Job M) : Prop where
  comm : ∀ m₀, ∀ i < c, ∀ j < c, i ≠ j → ∀ f ∈ job i m₀, ∀ g ∈ job j m₀, ∀ m, f (g m) = g (f m)
  stable : ∀ m₀, ∀ i < c, ∀ j < c, i ≠ j → ∀ g ∈ job j m₀, ∀ m, job i (g m) = job i m

/-- One worker after the other. -/
def sequential (c : ℕ) (job : Job M) (m : M) : M := (List.range c).foldl (fun m i => exec (job i m) m) m

theorem sequential_succ (c : ℕ) (job : Job M) (m : M) :
    sequential (c + 1) job m = exec (job c (sequential c job m)) (sequential c job m) := by
  rw [sequential, List.range_succ, List.foldl_append]
  rfl

theorem job_exec {job : Job M} {i : ℕ} {steps : List (M → M)} (h : ∀ g ∈ steps, ∀ m, job i (g m) = job i m) (m : M) :
    job i (exec steps m) = job i m := by
  induction steps generalizing m with
  | nil => rfl
  | cons g steps ih =>
    rw [List.forall_mem_cons] at h
    exact (ih h.2 (g m)).trans (h.1 m)

/-- A worker sees what was there before the others began. -/
theorem job_inOrder {job : Job M} {i k : ℕ} {programs : ℕ → List (M → M)}
    (h : ∀ j < k, ∀ g ∈ programs j, ∀ m, job i (g m) = job i m) (m : M) : job i (inOrder programs k m) = job i m := by
  induction k with
  | zero => rfl
  | succ k ih =>
    rw [inOrder_succ, job_exec (h k (Nat.lt_succ_self k)), ih fun j hj => h j (Nat.lt_succ_of_lt hj)]

theorem sequential_eq {c : ℕ} {job : Job M} (h : Independent c job) (m : M) :
    sequential c job m = inOrder (fun i => job i m) c m := by
  have hall : ∀ k ≤ c, sequential k job m = inOrder (fun i => job i m) k m := by
    intro k hk
    induction k with
    | zero => rfl
    | succ k ih =>
      have hsee : job k (inOrder (fun i => job i m) k m) = job k m :=
        job_inOrder (fun j hj => h.stable m k hk j (by omega) (by omega)) m
      rw [sequential_succ, inOrder_succ, ih (by omega), hsee]
  exact hall c le_rfl

/-! ## Counting workers -/

def tally (p : ℕ → Bool) (c : ℕ) : ℕ := (List.range c).countP p

theorem tally_succ (p : ℕ → Bool) (c : ℕ) : tally p (c + 1) = tally p c + if p c then 1 else 0 := by
  rw [tally, List.range_succ, List.countP_append, List.countP_singleton]
  rfl

theorem tally_congr {p q : ℕ → Bool} {c : ℕ} (h : ∀ i < c, p i = q i) : tally p c = tally q c :=
  List.countP_congr fun i hi => by rw [h i (List.mem_range.mp hi)]

/-- One worker changes. -/
theorem tally_update {σ : Type*} {s : ℕ → σ} {p : σ → Bool} {c i : ℕ} (hi : i < c) (t : σ) :
    tally (fun j => p (Function.update s i t j)) c + (if p (s i) then 1 else 0) =
      tally (fun j => p (s j)) c + if p t then 1 else 0 := by
  induction c with
  | zero => exact absurd hi (Nat.not_lt_zero i)
  | succ c ih =>
    rw [tally_succ, tally_succ]
    obtain hlt | rfl := Nat.lt_succ_iff_lt_or_eq.mp hi
    · have hrest := ih hlt
      rw [Function.update_of_ne hlt.ne']
      omega
    · have hrest : tally (fun j => p (Function.update s i t j)) i = tally (fun j => p (s j)) i :=
        tally_congr fun j hj => by rw [Function.update_of_ne hj.ne]
      rw [hrest, Function.update_self]
      omega

theorem tally_le (p : ℕ → Bool) (c : ℕ) : tally p c ≤ c := by
  have hle : (List.range c).countP p ≤ (List.range c).length := List.countP_le_length
  rwa [List.length_range] at hle

theorem tally_eq_zero {p : ℕ → Bool} {c : ℕ} : tally p c = 0 ↔ ∀ i < c, p i = false := by
  rw [tally, List.countP_eq_zero]
  simp

theorem tally_eq_self {p : ℕ → Bool} {c : ℕ} : tally p c = c ↔ ∀ i < c, p i = true := by
  have hlen : tally p c = c ↔ (List.range c).countP p = (List.range c).length := by rw [tally, List.length_range]
  rw [hlen, List.countP_eq_length]
  simp

end Jobs
