import Mathlib.Data.List.Basic
import Mathlib.Logic.Function.Basic

/-! # Tables of slots

A table is a list of slots, and a slot has a key or is free. As long as no key is in two slots, the table is a
finite map, and to write one slot is to update the map at one key. -/
namespace Slots
set_option autoImplicit false

variable {σ κ ν : Type} {key : σ → Option κ} {val : σ → ν}

/-- No key is in two slots. -/
def Once (key : σ → Option κ) (l : List σ) : Prop :=
  ∀ (i j : ℕ) (k : κ), l[i]?.bind key = some k → l[j]?.bind key = some k → i = j

theorem bind_set {l : List σ} {i : ℕ} (hi : i < l.length) (s : σ) (j : ℕ) :
    (l.set i s)[j]?.bind key = if i = j then key s else l[j]?.bind key := by
  split
  · next h => rw [← h, List.getElem?_set_self hi, Option.bind_some]
  · next h => rw [List.getElem?_set_ne h]

theorem bind_append_free {l : List σ} {free : σ} (hfree : key free = none) (n j : ℕ) :
    (l ++ List.replicate n free)[j]?.bind key = l[j]?.bind key := by
  rw [List.getElem?_append]
  split
  · rfl
  · next h =>
    have hnone : l[j]? = none := List.getElem?_eq_none (Nat.le_of_not_lt h)
    rw [hnone, List.getElem?_replicate]
    split
    · exact hfree
    · rfl

theorem once_append_free {l : List σ} {free : σ} (hfree : key free = none) (h : Once key l) (n : ℕ) :
    Once key (l ++ List.replicate n free) := by
  intro i j k hi hj
  rw [bind_append_free hfree] at hi hj
  exact h i j k hi hj

/-- A slot may get a key that no other slot has. -/
theorem once_set {l : List σ} (h : Once key l) {i : ℕ} (hi : i < l.length) {s : σ}
    (hs : ∀ k ∈ key s, ∀ j, l[j]?.bind key = some k → j = i) : Once key (l.set i s) := by
  intro a b k ha hb
  rw [bind_set hi] at ha hb
  split at ha
  · next hia =>
    split at hb
    · next hib => rw [← hia, ← hib]
    · exact absurd (hs k ha b hb).symm ‹_›
  · split at hb
    · exact absurd (hs k hb a ha).symm ‹_›
    · exact h a b k ha hb

theorem nodup_keys {l : List σ} (h : Once key l) : (l.filterMap key).Nodup := by
  induction l with
  | nil => exact List.nodup_nil
  | cons s l ih =>
    have htail : Once key l := fun i j k hi hj => Nat.succ.inj (h (i + 1) (j + 1) k hi hj)
    rw [List.filterMap_cons]
    split
    · exact ih htail
    · next k hk =>
      rw [List.nodup_cons]
      refine ⟨fun hmem => ?_, ih htail⟩
      obtain ⟨t, ht, htk⟩ := List.mem_filterMap.mp hmem
      obtain ⟨j, hj⟩ := List.getElem?_of_mem ht
      exact Nat.succ_ne_zero j (h (j + 1) 0 k (by rw [List.getElem?_cons_succ, hj]; exact htk) hk)

theorem countP_set {l : List σ} {i : ℕ} {old : σ} (hi : l[i]? = some old) (s : σ) (p : σ → Bool) :
    (l.set i s).countP p + (if p old then 1 else 0) = l.countP p + if p s then 1 else 0 := by
  obtain ⟨hlt, hget⟩ := List.getElem?_eq_some_iff.mp hi
  have hle : (if p old then 1 else 0) ≤ l.countP p := by
    split
    · next h => exact List.countP_pos_iff.mpr ⟨old, List.mem_of_getElem? hi, h⟩
    · exact Nat.zero_le _
  rw [List.countP_set hlt, hget]
  omega

section
variable [DecidableEq κ]

/-- The map that a table stands for. -/
def lookup (key : σ → Option κ) (val : σ → ν) (l : List σ) (k : κ) : Option ν := (l.find? fun s => key s = some k).map val

theorem lookup_of_mem {l : List σ} (h : Once key l) {s : σ} (hs : s ∈ l) {k : κ} (hk : key s = some k) :
    lookup key val l k = some (val s) := by
  cases hfind : l.find? fun s => key s = some k with
  | none => exact absurd (List.find?_eq_none.mp hfind s hs) (by simpa using hk)
  | some t =>
    obtain ⟨i, hi⟩ := List.getElem?_of_mem hs
    obtain ⟨j, hj⟩ := List.getElem?_of_mem (List.mem_of_find?_eq_some hfind)
    have ht : key t = some k := by simpa using List.find?_some hfind
    have hij := h i j k (by rw [hi]; exact hk) (by rw [hj]; exact ht)
    rw [hij, hj] at hi
    rw [lookup, hfind, Option.map_some, Option.some.inj hi]

theorem lookup_eq_some {l : List σ} (h : Once key l) {k : κ} {v : ν} :
    lookup key val l k = some v ↔ ∃ s ∈ l, key s = some k ∧ val s = v := by
  constructor
  · intro hv
    obtain ⟨s, hs, rfl⟩ := Option.map_eq_some_iff.mp hv
    exact ⟨s, List.mem_of_find?_eq_some hs, by simpa using List.find?_some hs, rfl⟩
  · intro ⟨s, hs, hk, hv⟩
    rw [← hv]
    exact lookup_of_mem h hs hk

theorem lookup_eq_none {l : List σ} {k : κ} : lookup key val l k = none ↔ ∀ s ∈ l, key s ≠ some k := by
  rw [lookup, Option.map_eq_none_iff, List.find?_eq_none]
  simp

theorem lookup_append_free {l : List σ} {free : σ} (hfree : key free = none) (n : ℕ) (k : κ) :
    lookup key val (l ++ List.replicate n free) k = lookup key val l k := by
  have hnone : (List.replicate n free).find? (fun s => key s = some k) = none := by
    rw [List.find?_eq_none]
    intro s hs
    rw [List.eq_of_mem_replicate hs, hfree]
    simp
  rw [lookup, lookup, List.find?_append, hnone, Option.or_none]

/-- A slot that is written is looked up, and the keys of the others stay. -/
theorem lookup_set {l : List σ} (h : Once key l) {i : ℕ} (hi : i < l.length) {s : σ}
    (hs : ∀ k ∈ key s, ∀ j, l[j]?.bind key = some k → j = i) {k : κ} (hk : l[i]?.bind key ≠ some k) (hks : key s ≠ some k) :
    lookup key val (l.set i s) k = lookup key val l k := by
  apply Option.ext
  intro v
  rw [lookup_eq_some (once_set h hi hs), lookup_eq_some h]
  constructor
  · intro ⟨t, ht, htk, htv⟩
    obtain ht | rfl := List.mem_or_eq_of_mem_set ht
    · exact ⟨t, ht, htk, htv⟩
    · exact absurd htk hks
  · intro ⟨t, ht, htk, htv⟩
    obtain ⟨j, hj⟩ := List.getElem?_of_mem ht
    have hij : i ≠ j := by
      rintro rfl
      rw [hj] at hk
      exact hk htk
    refine ⟨t, List.mem_of_getElem? (i := j) ?_, htk, htv⟩
    rw [List.getElem?_set_ne hij, hj]

/-- To write the slot of a key, or a free one, is to update the map. -/
theorem lookup_write {l : List σ} (h : Once key l) {i : ℕ} (hi : i < l.length) {s : σ} {k : κ} (hs : key s = some k)
    (hold : ∀ k', l[i]?.bind key = some k' → k' = k) (hother : ∀ j, l[j]?.bind key = some k → j = i) :
    lookup key val (l.set i s) = Function.update (lookup key val l) k (some (val s)) := by
  have hs' : ∀ k' ∈ key s, ∀ j, l[j]?.bind key = some k' → j = i := by
    intro k' hk' j hj
    obtain rfl : k = k' := Option.some.inj (hs.symm.trans hk')
    exact hother j hj
  funext k'
  by_cases hk : k' = k
  · subst hk
    rw [Function.update_self]
    exact lookup_of_mem (once_set h hi hs') (List.mem_set hi s) hs
  · rw [Function.update_of_ne hk]
    apply lookup_set h hi hs' (fun h' => hk (hold k' h'))
    rw [hs]
    exact fun h' => hk (Option.some.inj h').symm

/-- To free the slot of a key is to drop the key. -/
theorem lookup_free {l : List σ} (h : Once key l) {i : ℕ} (hi : i < l.length) {s : σ} {k : κ} (hs : key s = none)
    (hold : l[i]?.bind key = some k) : lookup key val (l.set i s) = Function.update (lookup key val l) k none := by
  have hs' : ∀ k' ∈ key s, ∀ j, l[j]?.bind key = some k' → j = i := by
    intro k' hk'
    rw [hs] at hk'
    cases hk'
  funext k'
  by_cases hk : k' = k
  · subst hk
    rw [Function.update_self, lookup_eq_none]
    intro t ht htk
    obtain ⟨j, hj⟩ := List.getElem?_of_mem ht
    have hbind : (l.set i s)[j]?.bind key = some k' := by rw [hj]; exact htk
    rw [bind_set hi] at hbind
    split at hbind
    · rw [hs] at hbind
      cases hbind
    · next hne => exact hne (h i j k' hold hbind)
  · rw [Function.update_of_ne hk]
    apply lookup_set h hi hs' (fun h' => hk (Option.some.inj (h'.symm.trans hold)))
    rw [hs]
    exact (Option.some_ne_none k').symm

end

end Slots
