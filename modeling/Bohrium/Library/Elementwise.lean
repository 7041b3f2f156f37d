import Mathlib.Data.List.Nodup
import Mathlib.Logic.Function.Basic

/-! # An assignment, element by element

`out i := val i` for the indices of a list, one after the other and in place. If no element of the result
is read for another one, the order does not matter: it is as if everything were read before anything is
written. -/
namespace Elementwise
set_option autoImplicit false

variable {ι Loc V : Type*} [DecidableEq Loc]

/-- The memory after the assignments of a list of indices. -/
def run (out : ι → Loc) (val : (Loc → V) → ι → V) (order : List ι) (m : Loc → V) : Loc → V :=
  order.foldl (fun m i => Function.update m (out i) (val m i)) m

/-- No two indices write one element, and none reads what another one writes. -/
def Apart (out : ι → Loc) (val : (Loc → V) → ι → V) (order : List ι) : Prop :=
  ∀ i ∈ order, ∀ j ∈ order, i ≠ j → out i ≠ out j ∧ ∀ m v, val (Function.update m (out i) v) j = val m j

variable {out : ι → Loc} {val : (Loc → V) → ι → V} {order : List ι}

theorem run_cons (i : ι) (order : List ι) (m : Loc → V) :
    run out val (i :: order) m = run out val order (Function.update m (out i) (val m i)) := rfl

/-- Nothing else changes. -/
theorem run_of_ne (m : Loc → V) {x : Loc} (hx : ∀ i ∈ order, out i ≠ x) : run out val order m x = m x := by
  induction order generalizing m with
  | nil => rfl
  | cons i order ih =>
    rw [List.forall_mem_cons] at hx
    rw [run_cons, ih _ hx.2, Function.update_of_ne hx.1.symm]

/-- No index reads what another one writes, and two indices that write one element write one value. -/
def Consistent (out : ι → Loc) (val : (Loc → V) → ι → V) (order : List ι) : Prop :=
  ∀ i ∈ order, ∀ j ∈ order, i ≠ j →
    (∀ m v, val (Function.update m (out i) v) j = val m j) ∧ (out i = out j → ∀ m, val m i = val m j)

theorem Apart.consistent (h : Apart out val order) : Consistent out val order := fun i hi j hj hne =>
  ⟨(h i hi j hj hne).2, fun heq => absurd heq (h i hi j hj hne).1⟩

/-- Every element becomes what the memory before the first assignment says. -/
theorem run_of_consistent (h : Consistent out val order) (hnd : order.Nodup) (m : Loc → V) {i : ι} (hi : i ∈ order) :
    run out val order m (out i) = val m i := by
  induction order generalizing m i with
  | nil => cases hi
  | cons j order ih =>
    obtain ⟨hj, hnd'⟩ := List.nodup_cons.mp hnd
    have htail : Consistent out val order := fun k hk l hl =>
      h k (List.mem_cons_of_mem j hk) l (List.mem_cons_of_mem j hl)
    -- an index that is still to come does not see the first assignment
    have hlater : ∀ k ∈ order, run out val order (Function.update m (out j) (val m j)) (out k) = val m k := by
      intro k hk
      have hjk : j ≠ k := fun e => hj (e ▸ hk)
      rw [ih htail hnd' _ hk, (h j List.mem_cons_self k (List.mem_cons_of_mem j hk) hjk).1]
    rw [run_cons]
    rcases List.mem_cons.mp hi with rfl | hi
    · by_cases hagain : ∃ k ∈ order, out k = out i
      · obtain ⟨k, hk, heq⟩ := hagain
        have hik : i ≠ k := fun e => hj (e ▸ hk)
        have hlast := hlater k hk
        rw [heq] at hlast
        rw [hlast, (h i List.mem_cons_self k (List.mem_cons_of_mem i hk) hik).2 heq.symm]
      · rw [run_of_ne, Function.update_self]
        exact fun k hk heq => hagain ⟨k, hk, heq⟩
    · exact hlater i hi

theorem run_of_mem (h : Apart out val order) (hnd : order.Nodup) (m : Loc → V) {i : ι} (hi : i ∈ order) :
    run out val order m (out i) = val m i :=
  run_of_consistent h.consistent hnd m hi

/-- What every assignment keeps, the run keeps. -/
theorem run_invariant {P : (Loc → V) → Prop} (hstep : ∀ m, ∀ i ∈ order, P m → P (Function.update m (out i) (val m i)))
    {m : Loc → V} (hm : P m) : P (run out val order m) := by
  induction order generalizing m with
  | nil => exact hm
  | cons i order ih =>
    rw [run_cons]
    apply ih fun w j hj => hstep w j (List.mem_cons_of_mem i hj)
    exact hstep m i List.mem_cons_self hm

/-- What holds of every value that is there or is written holds at the end. -/
theorem run_forall {P : V → Prop} (hval : ∀ m i, (∀ x, P (m x)) → P (val m i)) {m : Loc → V} (hm : ∀ x, P (m x)) (x : Loc) :
    P (run out val order m x) := by
  refine run_invariant (P := fun w => ∀ y, P (w y)) (fun w i _ hw y => ?_) hm x
  by_cases hy : y = out i
  · rw [hy, Function.update_self]
    exact hval w i hw
  · rw [Function.update_of_ne hy]
    exact hw y

end Elementwise
