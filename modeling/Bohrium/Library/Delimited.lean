import Mathlib.Data.List.Basic

/-! # Words that end by themselves

An encoding delimits its values if a value and what follows it can be told from the word: then values may
be written one behind the other without lengths. Words of one length do, and so do two delimiting parts,
and a list of values in front of a part that none of them begins with. -/
namespace Delimited
set_option autoImplicit false

variable {α β γ : Type*}

/-- Whatever follows, the value and the rest are determined. -/
def Delimits (enc : α → List β) (P : α → Prop) : Prop :=
  ∀ a a', P a → P a' → ∀ r r', enc a ++ r = enc a' ++ r' → a = a' ∧ r = r'

variable {enc : α → List β} {P : α → Prop}

/-- A part behind another one, whose form may depend on the first. -/
theorem Delimits.pair {enc' : α → γ → List β} {Q : α → γ → Prop} (h : Delimits enc P)
    (h' : ∀ a, P a → Delimits (enc' a) (Q a)) :
    Delimits (fun p : α × γ => enc p.1 ++ enc' p.1 p.2) fun p => P p.1 ∧ Q p.1 p.2 := by
  intro p p' hp hp' r r' heq
  obtain ⟨a, c⟩ := p
  obtain ⟨a', c'⟩ := p'
  dsimp only at hp hp' heq
  rw [List.append_assoc, List.append_assoc] at heq
  obtain ⟨rfl, heq⟩ := h a a' hp.1 hp'.1 _ _ heq
  obtain ⟨rfl, hrest⟩ := h' a hp.1 c c' hp.2 hp'.2 r r' heq
  exact ⟨rfl, hrest⟩

/-- A list of values up to a part that no value begins with. -/
theorem Delimits.list {tail : γ → List β} {Q : γ → Prop} (h : Delimits enc P) (htail : Delimits tail Q)
    (hapart : ∀ a c, P a → Q c → ∀ r r', enc a ++ r ≠ tail c ++ r') :
    Delimits (fun p : List α × γ => p.1.flatMap enc ++ tail p.2) fun p => (∀ a ∈ p.1, P a) ∧ Q p.2 := by
  intro p p' hp hp' r r' heq
  obtain ⟨as, c⟩ := p
  obtain ⟨as', c'⟩ := p'
  obtain ⟨has, hc⟩ := hp
  obtain ⟨has', hc'⟩ := hp'
  dsimp only at has hc has' hc' heq
  induction as generalizing as' with
  | nil =>
    cases as' with
    | nil =>
      obtain ⟨rfl, hrest⟩ := htail c c' hc hc' r r' heq
      exact ⟨rfl, hrest⟩
    | cons a' as' =>
      simp only [List.flatMap_cons, List.flatMap_nil, List.nil_append, List.append_assoc] at heq
      exact absurd heq.symm (hapart a' c (has' a' List.mem_cons_self) hc _ _)
  | cons a as ih =>
    rw [List.forall_mem_cons] at has
    cases as' with
    | nil =>
      simp only [List.flatMap_cons, List.flatMap_nil, List.nil_append, List.append_assoc] at heq
      exact absurd heq (hapart a c' has.1 hc' _ _)
    | cons a' as' =>
      rw [List.forall_mem_cons] at has'
      simp only [List.flatMap_cons, List.append_assoc] at heq
      obtain ⟨rfl, hbehind⟩ := h a a' has.1 has'.1 _ _ heq
      obtain ⟨hpair, hrest⟩ := ih as' (by simpa only [List.append_assoc] using hbehind) has.2 has'.2
      obtain ⟨rfl, rfl⟩ := Prod.mk.inj hpair
      exact ⟨rfl, hrest⟩

/-- Values one behind the other are uniquely decodable. -/
theorem Delimits.flatMap_inj (h : Delimits enc P) (hne : ∀ a, P a → enc a ≠ []) {as as' : List α}
    (has : ∀ a ∈ as, P a) (has' : ∀ a ∈ as', P a) (heq : as.flatMap enc = as'.flatMap enc) : as = as' := by
  induction as generalizing as' with
  | nil =>
    cases as' with
    | nil => rfl
    | cons a' as' =>
      rw [List.flatMap_cons, List.flatMap_nil] at heq
      exact absurd (List.append_eq_nil_iff.mp heq.symm).1 (hne a' (has' a' List.mem_cons_self))
  | cons a as ih =>
    rw [List.forall_mem_cons] at has
    cases as' with
    | nil =>
      rw [List.flatMap_cons, List.flatMap_nil] at heq
      exact absurd (List.append_eq_nil_iff.mp heq).1 (hne a has.1)
    | cons a' as' =>
      rw [List.forall_mem_cons] at has'
      obtain ⟨rfl, hrest⟩ := h a a' has.1 has'.1 _ _ heq
      rw [ih has.2 has'.2 hrest]

end Delimited
