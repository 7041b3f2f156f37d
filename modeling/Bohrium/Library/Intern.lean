import Mathlib.Data.List.Basic
import Mathlib.Data.List.Pairwise
import Mathlib.Data.Nat.Notation

/-! # Interning

A table that grows by one entry for every item that is related to none of its entries. The relation is
symmetric and transitive but need not be reflexive: an item that is not related to itself gets an entry
each time. -/
namespace Intern
set_option autoImplicit false

variable {α : Type} (r : α → α → Bool)

/-- The table afterwards, and the position of the entry for `x`. -/
def intern (table : List α) (x : α) : List α × ℕ :=
  match table.findIdx? fun y => r y x with
  | some k => (table, k)
  | none => (table ++ [x], table.length)

/-- One item after the other; the positions are in the order of the items. -/
def internAll (table : List α) : List α → List α × List ℕ
  | [] => (table, [])
  | x :: xs =>
    let (table', k) := intern r table x
    let (table'', ks) := internAll table' xs
    (table'', k :: ks)

/-- The entry at a position is the item itself or one that is related to it. -/
def Holds (table : List α) (p : α × ℕ) : Prop := ∃ y, table[p.2]? = some y ∧ (y = p.1 ∨ r y p.1 = true)

variable {r} {table : List α} {x : α}

theorem intern_eq_of_some {k : ℕ} (h : (table.findIdx? fun y => r y x) = some k) :
    intern r table x = (table, k) := by
  unfold intern
  rw [h]

theorem intern_eq_of_none (h : (table.findIdx? fun y => r y x) = none) :
    intern r table x = (table ++ [x], table.length) := by
  unfold intern
  rw [h]

theorem Holds.intern {p : α × ℕ} (h : Holds r table p) (x : α) : Holds r (intern r table x).1 p := by
  obtain ⟨y, hy, hp⟩ := h
  refine ⟨y, ?_, hp⟩
  cases hfind : table.findIdx? fun y => r y x with
  | some k => rw [intern_eq_of_some hfind, hy]
  | none =>
    rw [intern_eq_of_none hfind, List.getElem?_append_left (List.getElem?_eq_some_iff.mp hy).1, hy]

theorem holds_intern (table : List α) (x : α) : Holds r (intern r table x).1 (x, (intern r table x).2) := by
  cases hfind : table.findIdx? fun y => r y x with
  | some k =>
    obtain ⟨hk, hr, -⟩ := List.findIdx?_eq_some_iff_getElem.mp hfind
    rw [intern_eq_of_some hfind]
    exact ⟨table[k], List.getElem?_eq_getElem hk, Or.inr hr⟩
  | none =>
    rw [intern_eq_of_none hfind]
    exact ⟨x, by simp, Or.inl rfl⟩

theorem pairwise_intern (h : table.Pairwise fun a b => r a b = false) :
    (intern r table x).1.Pairwise fun a b => r a b = false := by
  cases hfind : table.findIdx? fun y => r y x with
  | some k => rwa [intern_eq_of_some hfind]
  | none =>
    rw [intern_eq_of_none hfind, List.pairwise_append]
    refine ⟨h, List.pairwise_singleton _ _, ?_⟩
    intro a ha b hb
    obtain rfl := List.mem_singleton.mp hb
    exact List.findIdx?_eq_none_iff.mp hfind a ha

theorem length_internAll (xs : List α) : (internAll r table xs).2.length = xs.length := by
  induction xs generalizing table with
  | nil => rfl
  | cons x xs ih => exact congrArg (· + 1) ih

section Related
variable (hsymm : ∀ a b, r a b = true → r b a = true)
  (htrans : ∀ a b c, r a b = true → r b c = true → r a c = true)

include hsymm htrans

/-- The new item gets the position of an earlier one exactly when it is related to it. -/
theorem intern_eq_iff (hpair : table.Pairwise fun a b => r a b = false) {p : α × ℕ} (hp : Holds r table p) (x : α) :
    p.2 = (intern r table x).2 ↔ r p.1 x = true := by
  obtain ⟨y, hy, hyp⟩ := hp
  obtain ⟨hlt, hget⟩ := List.getElem?_eq_some_iff.mp hy
  have hrel : r p.1 x = true ↔ r y x = true := by
    obtain rfl | hyp := hyp
    · rfl
    · exact ⟨htrans _ _ _ hyp, htrans _ _ _ (hsymm _ _ hyp)⟩
  rw [hrel]
  cases hfind : table.findIdx? fun y => r y x with
  | none =>
    have hnot := List.findIdx?_eq_none_iff.mp hfind y (hget ▸ List.getElem_mem hlt)
    rw [intern_eq_of_none hfind, hnot]
    constructor
    · intro h
      exact absurd hlt (by simp [h])
    · intro h
      cases h
  | some k =>
    obtain ⟨hk, hr, -⟩ := List.findIdx?_eq_some_iff_getElem.mp hfind
    rw [intern_eq_of_some hfind]
    constructor
    · intro h
      have hpk : p.2 = k := h
      subst hpk
      rwa [← hget]
    · intro h
      -- two entries that are both related to `x` are one
      have hno := List.pairwise_iff_getElem.mp hpair
      have hboth : r table[k] y = true := htrans _ _ _ hr (hsymm _ _ h)
      obtain hkp | hkp | hkp := Nat.lt_trichotomy k p.2
      · rw [← hget, hno k p.2 hk hlt hkp] at hboth
        cases hboth
      · exact hkp.symm
      · have := hsymm _ _ hboth
        rw [← hget, hno p.2 k hlt hk hkp] at this
        cases this

/-- What the table says after any sequence of items, begun on a table in order. -/
theorem internAll_spec {xs : List α} (hpair : table.Pairwise fun a b => r a b = false) {seen : List (α × ℕ)}
    (hseen : ∀ p ∈ seen, Holds r table p) :
    (internAll r table xs).1.Pairwise (fun a b => r a b = false) ∧
      (∀ p ∈ seen ++ xs.zip (internAll r table xs).2, Holds r (internAll r table xs).1 p) ∧
      (∀ p ∈ seen, ∀ q ∈ xs.zip (internAll r table xs).2, p.2 = q.2 ↔ r p.1 q.1 = true) ∧
      (xs.zip (internAll r table xs).2).Pairwise fun p q => p.2 = q.2 ↔ r p.1 q.1 = true := by
  induction xs generalizing table seen with
  | nil => exact ⟨hpair, by simpa [internAll] using hseen, by simp [internAll], List.Pairwise.nil⟩
  | cons x xs ih =>
    have hnew := holds_intern (r := r) table x
    have hkeep : ∀ p ∈ seen ++ [(x, (intern r table x).2)], Holds r (intern r table x).1 p := by
      intro p hp
      obtain hp | hp := List.mem_append.mp hp
      · exact (hseen p hp).intern x
      · rwa [List.mem_singleton.mp hp]
    obtain ⟨h1, h2, h3, h4⟩ := ih (pairwise_intern (x := x) hpair) hkeep
    simp only [internAll, List.zip_cons_cons]
    refine ⟨h1, ?_, ?_, ?_⟩
    · simpa using h2
    · intro p hp q hq
      obtain rfl | hq := List.mem_cons.mp hq
      · exact intern_eq_iff hsymm htrans hpair (hseen p hp) x
      · exact h3 p (by simp [hp]) q hq
    · rw [List.pairwise_cons]
      exact ⟨h3 _ (by simp), h4⟩

/-- Begun on the empty table. -/
theorem internAll_nil_spec (xs : List α) :
    (internAll r [] xs).1.Pairwise (fun a b => r a b = false) ∧
      (∀ p ∈ xs.zip (internAll r [] xs).2, Holds r (internAll r [] xs).1 p) ∧
      (xs.zip (internAll r [] xs).2).Pairwise fun p q => p.2 = q.2 ↔ r p.1 q.1 = true := by
  have hseen : ∀ p ∈ ([] : List (α × ℕ)), Holds r [] p := by simp
  obtain ⟨h1, h2, -, h4⟩ := internAll_spec hsymm htrans List.Pairwise.nil hseen
  exact ⟨h1, h2, h4⟩

end Related

end Intern
