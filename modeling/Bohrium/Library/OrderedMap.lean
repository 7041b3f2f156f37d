import Mathlib.Data.List.Pairwise
import Mathlib.Order.Lattice

/-! # Maps ordered by their keys

The entries are kept in ascending order of the keys, and no key has two of them. -/
set_option autoImplicit false

structure OrderedMap (κ β : Type) [LinearOrder κ] where
  entries : List (κ × β)
  sorted : entries.Pairwise fun e f => e.1 < f.1

namespace OrderedMap

variable {κ β : Type} [LinearOrder κ]

instance : Membership (κ × β) (OrderedMap κ β) := ⟨fun m e => e ∈ m.entries⟩

def empty : OrderedMap κ β := ⟨[], List.Pairwise.nil⟩

/-- The first entry whose key is not below `k`. -/
def lowerBound (m : OrderedMap κ β) (k : κ) : Option (κ × β) := m.entries.find? fun e => decide (k ≤ e.1)

/-- The entry for `k` is added, or replaced. -/
def insert (m : OrderedMap κ β) (k : κ) (v : β) : OrderedMap κ β where
  entries := (m.entries.filter fun e => decide (e.1 < k)) ++ (k, v) :: m.entries.filter fun e => decide (k < e.1)
  sorted := by
    rw [List.pairwise_append, List.pairwise_cons]
    refine ⟨m.sorted.filter _, ⟨?_, m.sorted.filter _⟩, ?_⟩
    · intro f hf
      exact of_decide_eq_true (List.mem_filter.mp hf).2
    · intro e he f hf
      have hek : e.1 < k := of_decide_eq_true (List.mem_filter.mp he).2
      cases hf with
      | head => exact hek
      | tail _ hf => exact lt_trans hek (of_decide_eq_true (List.mem_filter.mp hf).2)

def erase (m : OrderedMap κ β) (k : κ) : OrderedMap κ β := ⟨m.entries.filter fun e => decide (e.1 ≠ k), m.sorted.filter _⟩

variable {m : OrderedMap κ β} {k : κ} {v : β} {e f : κ × β}

@[simp] theorem not_mem_empty : e ∉ (empty : OrderedMap κ β) := List.not_mem_nil

@[simp] theorem mem_insert : e ∈ m.insert k v ↔ e = (k, v) ∨ e ∈ m ∧ e.1 ≠ k := by
  show e ∈ (m.insert k v).entries ↔ e = (k, v) ∨ e ∈ m.entries ∧ e.1 ≠ k
  rw [ne_iff_lt_or_gt, and_or_left]
  simp only [insert, List.mem_append, List.mem_cons, List.mem_filter, decide_eq_true_eq]
  exact or_left_comm

@[simp] theorem mem_erase : e ∈ m.erase k ↔ e ∈ m ∧ e.1 ≠ k := by
  show e ∈ (m.erase k).entries ↔ e ∈ m.entries ∧ e.1 ≠ k
  rw [erase, List.mem_filter, decide_eq_true_eq]

theorem of_lowerBound (h : m.lowerBound k = some e) : e ∈ m ∧ k ≤ e.1 :=
  ⟨List.mem_of_find?_eq_some h, of_decide_eq_true (List.find?_some (p := fun e : κ × β => decide (k ≤ e.1)) h)⟩

theorem lowerBound_of_mem (he : e ∈ m) : m.lowerBound e.1 = some e := by
  obtain ⟨before, after, heq⟩ := List.append_of_mem (show e ∈ m.entries from he)
  have hsorted := m.sorted
  rw [heq, List.pairwise_append] at hsorted
  rw [lowerBound, List.find?_eq_some_iff_append]
  refine ⟨decide_eq_true (le_refl _), before, after, heq, fun f hf => ?_⟩
  have hlt := hsorted.2.2 f hf e List.mem_cons_self
  simp [hlt]

end OrderedMap
