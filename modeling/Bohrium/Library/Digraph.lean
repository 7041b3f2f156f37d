import Mathlib.Logic.Relation
import Mathlib.Data.Finset.Card
import Mathlib.Data.Finset.Range
import Mathlib.Data.Set.Finite.Basic
import Bohrium.Library.Reorder

/-! # Directed graphs by their edges

Nonempty paths are `Relation.TransGen`. The facts that graph rewriting needs: a path survives when
only edges off the path are removed, contraction of two vertices without a detour between them
makes no cycle, and removing every edge that a longer path implies changes no reachability. For a
finite list of edges, reachability is decided by recursion on the list (`reach`). -/
namespace Edges
open Relation
set_option autoImplicit false

variable {V W : Type*}

def Acyclic (E : V → V → Prop) : Prop := ∀ v, ¬ TransGen E v v

/-! ## Paths -/

/-- A path survives in another graph that keeps every edge on the way. -/
theorem path_of_keeps {E E' : V → V → Prop} {u w : V} (h : TransGen E u w)
    (hkeep : ∀ p q, ReflTransGen E u p → E p q → ReflTransGen E q w → E' p q) : TransGen E' u w := by
  induction h using TransGen.head_induction_on with
  | single hp => exact TransGen.single (hkeep _ _ ReflTransGen.refl hp ReflTransGen.refl)
  | head hp hq ih =>
    refine TransGen.head (hkeep _ _ ReflTransGen.refl hp hq.to_reflTransGen) (ih ?_)
    intro p q hup hpq hqw
    exact hkeep p q (ReflTransGen.head hp hup) hpq hqw

/-- A map that sends edges to edges or collapses them sends paths to paths or collapses them. -/
theorem path_map {E : V → V → Prop} {E' : W → W → Prop} (f : V → W)
    (hf : ∀ u v, E u v → f u = f v ∨ E' (f u) (f v)) {u v : V} (h : TransGen E u v) :
    f u = f v ∨ TransGen E' (f u) (f v) := by
  induction h with
  | single h => exact (hf _ _ h).imp_right TransGen.single
  | tail _ h ih =>
    rcases ih with ih | ih <;> rcases hf _ _ h with h | h
    · exact Or.inl (ih.trans h)
    · exact Or.inr (ih ▸ TransGen.single h)
    · exact Or.inr (h ▸ ih)
    · exact Or.inr (ih.tail h)

theorem path_first {E : V → V → Prop} {u w : V} (h : TransGen E u w) :
    ∃ x, E u x ∧ ReflTransGen E x w := TransGen.head'_iff.mp h

theorem path_last {E : V → V → Prop} {u w : V} (h : TransGen E u w) :
    ∃ x, ReflTransGen E u x ∧ E x w := TransGen.tail'_iff.mp h

theorem path_of_refl {E : V → V → Prop} {u w : V} (h : ReflTransGen E u w) (hne : u ≠ w) :
    TransGen E u w := by
  rcases reflTransGen_iff_eq_or_transGen.mp h with rfl | h
  · exact absurd rfl hne
  · exact h

theorem Acyclic.mono {E E' : V → V → Prop} (h : Acyclic E) (hs : ∀ u v, E' u v → E u v) :
    Acyclic E' := fun v hv => h v (TransGen.mono hs v v hv)

/-- A graph that maps into an acyclic one without collapsing an edge is acyclic. -/
theorem Acyclic.comap {E : V → V → Prop} {E' : W → W → Prop} (h : Acyclic E') (f : V → W)
    (hf : ∀ u v, E u v → E' (f u) (f v)) : Acyclic E := fun v hv => h (f v) (hv.lift f hf)

/-- A path of length greater than one. -/
def Detour (E : V → V → Prop) (u v : V) : Prop := ∃ x, TransGen E u x ∧ TransGen E x v

/-! ## Contraction -/

/-- The image of a graph under a map of its vertices, without loops. -/
def Image (f : V → W) (E : V → V → Prop) (u' v' : W) : Prop :=
  u' ≠ v' ∧ ∃ u v, E u v ∧ f u = u' ∧ f v = v'

theorem image_image {X : Type*} (f : V → W) (g : W → X) (E : V → V → Prop) (u v : X) :
    Image g (Image f E) u v ↔ Image (g ∘ f) E u v := by
  constructor
  · rintro ⟨hne, _, _, ⟨_, x, y, hxy, rfl, rfl⟩, rfl, rfl⟩
    exact ⟨hne, x, y, hxy, rfl, rfl⟩
  · rintro ⟨hne, x, y, hxy, rfl, rfl⟩
    exact ⟨hne, f x, f y, ⟨fun e => hne (congrArg g e), x, y, hxy, rfl, rfl⟩, rfl, rfl⟩

/-- Whether the image of a graph is acyclic depends only on which vertices the map puts together. -/
theorem Acyclic.image_congr {X : Type*} {E : V → V → Prop} {f : V → W} {f' : V → X} (s : Set V)
    (hs : ∀ u v, E u v → u ∈ s ∧ v ∈ s) (hf : ∀ u ∈ s, ∀ v ∈ s, f u = f v ↔ f' u = f' v)
    (h : Acyclic (Image f E)) : Acyclic (Image f' E) := by
  have key : ∀ a b, TransGen (Image f' E) a b →
      ∃ u ∈ s, ∃ v ∈ s, f' u = a ∧ f' v = b ∧ TransGen (Image f E) (f u) (f v) := by
    have hstep : ∀ x y, E x y → f' x ≠ f' y → Image f E (f x) (f y) := by
      intro x y hxy hne
      obtain ⟨hx, hy⟩ := hs x y hxy
      exact ⟨fun e => hne ((hf x hx y hy).mp e), x, y, hxy, rfl, rfl⟩
    intro a b hab
    induction hab with
    | single hab =>
      obtain ⟨hne, x, y, hxy, rfl, rfl⟩ := hab
      obtain ⟨hx, hy⟩ := hs x y hxy
      exact ⟨x, hx, y, hy, rfl, rfl, TransGen.single (hstep x y hxy hne)⟩
    | tail _ hbc ih =>
      obtain ⟨u, hu, v, hv, hua, hvb, huv⟩ := ih
      obtain ⟨hne, x, y, hxy, hxb, rfl⟩ := hbc
      obtain ⟨hx, hy⟩ := hs x y hxy
      rw [← hxb] at hne
      have hvx : f v = f x := (hf v hv x hx).mpr (hvb.trans hxb.symm)
      exact ⟨u, hu, y, hy, hua, rfl, huv.tail (hvx ▸ hstep x y hxy hne)⟩
  intro c hc
  obtain ⟨u, hu, v, hv, huc, hvc, huv⟩ := key c c hc
  have huv' : f u = f v := (hf u hu v hv).mpr (huc.trans hvc.symm)
  exact h (f u) (huv'.symm ▸ huv)

/-- A graph with its strongly connected classes collapsed is acyclic. -/
theorem acyclic_condensation {E : V → V → Prop} (f : V → W) {s : Set V}
    (hs : ∀ u v, E u v → u ∈ s ∧ v ∈ s)
    (hf : ∀ u ∈ s, ∀ v ∈ s, f u = f v ↔ ReflTransGen E u v ∧ ReflTransGen E v u) :
    Acyclic (Image f E) := by
  have key : ∀ a b, TransGen (Image f E) a b →
      ∃ u ∈ s, ∃ v ∈ s, f u = a ∧ f v = b ∧ ReflTransGen E u v := by
    intro a b hab
    induction hab with
    | single h =>
      obtain ⟨_, x, y, hxy, hx, hy⟩ := h
      exact ⟨x, (hs x y hxy).1, y, (hs x y hxy).2, hx, hy, ReflTransGen.single hxy⟩
    | tail _ h ih =>
      obtain ⟨u, hu, v, hv, hua, hvb, huv⟩ := ih
      obtain ⟨_, x, y, hxy, hx, hy⟩ := h
      obtain ⟨hxs, hys⟩ := hs x y hxy
      have hvx : ReflTransGen E v x := ((hf v hv x hxs).mp (hvb.trans hx.symm)).1
      exact ⟨u, hu, y, hys, hua, hy, (huv.trans hvx).tail hxy⟩
  intro a ha
  obtain ⟨b, ⟨hne, x, y, hxy, rfl, rfl⟩, hback⟩ := path_first ha
  obtain ⟨u, hu, v, hv, huy, hvx, huv⟩ := key _ _ (path_of_refl hback (Ne.symm hne))
  obtain ⟨hxs, hys⟩ := hs x y hxy
  -- the way back starts in the class of `y` and ends in the class of `x`
  have hyu : ReflTransGen E y u := ((hf y hys u hu).mp huy.symm).1
  have hvx' : ReflTransGen E v x := ((hf v hv x hxs).mp hvx).1
  exact hne ((hf x hxs y hys).mpr ⟨ReflTransGen.single hxy, (hyu.trans huv).trans hvx'⟩)

/-- Contraction of `b` into `a`. -/
def contract [DecidableEq V] (a b v : V) : V := if v = b then a else v

section Contract
variable [DecidableEq V] {E : V → V → Prop} {a b : V}

theorem contract_eq_iff (hab : a ≠ b) {x y : V} :
    contract a b x = contract a b y ↔ x = y ∨ (x = a ∧ y = b) ∨ (x = b ∧ y = a) := by
  unfold contract
  split_ifs with hx hy hy
  · simp [hx, hy]
  · subst hx
    constructor
    · intro h
      exact Or.inr (Or.inr ⟨rfl, h.symm⟩)
    · rintro (h | ⟨h, _⟩ | ⟨_, h⟩)
      · exact absurd h.symm hy
      · exact absurd h.symm hab
      · exact h.symm
  · subst hy
    constructor
    · intro h
      exact Or.inr (Or.inl ⟨h, rfl⟩)
    · rintro (h | ⟨h, _⟩ | ⟨h, _⟩)
      · exact absurd h hx
      · exact h
      · exact absurd h hx
  · constructor
    · exact Or.inl
    · rintro (h | ⟨_, h⟩ | ⟨h, _⟩)
      · exact h
      · exact absurd h hy
      · exact absurd h hx

/-- A path of the contracted graph is a path of the graph, possibly broken at `a` and `b`. -/
theorem path_of_contract (hab : a ≠ b) {u v : V} (h : TransGen (Image (contract a b) E) u v) :
    ∃ x y, contract a b x = u ∧ contract a b y = v ∧
      (TransGen E x y ∨ ∃ p q, (p = a ∨ p = b) ∧ (q = a ∨ q = b) ∧
        ReflTransGen E x p ∧ ReflTransGen E q y) := by
  induction h with
  | single h =>
    obtain ⟨_, x, y, hxy, hx, hy⟩ := h
    exact ⟨x, y, hx, hy, Or.inl (TransGen.single hxy)⟩
  | tail _ h ih =>
    obtain ⟨_, p', q', hpq, hp', hq'⟩ := h
    obtain ⟨x, y, hx, hy, hxy⟩ := ih
    refine ⟨x, q', hx, hq', ?_⟩
    rcases (contract_eq_iff hab).mp (hy.trans hp'.symm) with rfl | hjump
    · rcases hxy with hxy | ⟨p, q, hp, hq, hxp, hqy⟩
      · exact Or.inl (hxy.tail hpq)
      · exact Or.inr ⟨p, q, hp, hq, hxp, hqy.tail hpq⟩
    · have hya : y = a ∨ y = b := hjump.imp And.left And.left
      have hpa : p' = a ∨ p' = b := (hjump.imp And.right And.right).symm
      refine Or.inr ?_
      rcases hxy with hxy | ⟨p, q, hp, _, hxp, _⟩
      · exact ⟨y, p', hya, hpa, hxy.to_reflTransGen, ReflTransGen.single hpq⟩
      · exact ⟨p, p', hp, hpa, hxp, ReflTransGen.single hpq⟩

/-- Contracting two vertices makes no cycle unless a third vertex lies between them. -/
theorem acyclic_contract (hac : Acyclic E) (hab : a ≠ b)
    (h₁ : ∀ x, x ≠ a → x ≠ b → TransGen E a x → ¬ TransGen E x b)
    (h₂ : ∀ x, x ≠ a → x ≠ b → TransGen E b x → ¬ TransGen E x a) :
    Acyclic (Image (contract a b) E) := by
  -- first cycles through a vertex that is not the contracted one
  have key : ∀ w, w ≠ a → ¬ TransGen (Image (contract a b) E) w w := by
    intro w hwa h
    obtain ⟨x, y, hx, hy, hxy⟩ := path_of_contract hab h
    have hfix : ∀ z, contract a b z = w → z = w ∧ z ≠ b := by
      intro z hz
      unfold contract at hz
      split_ifs at hz with hzb
      · exact absurd hz.symm hwa
      · exact ⟨hz, hzb⟩
    obtain ⟨rfl, hwb⟩ := hfix x hx
    obtain ⟨rfl, _⟩ := hfix y hy
    rcases hxy with hxy | ⟨p, q, hp, hq, hxp, hqx⟩
    · exact hac _ hxy
    · have hpne : y ≠ p := by rcases hp with rfl | rfl <;> assumption
      have hqne : q ≠ y := by rcases hq with rfl | rfl <;> exact Ne.symm ‹_›
      have hyp := path_of_refl hxp hpne
      have hqy := path_of_refl hqx hqne
      rcases hp with rfl | rfl <;> rcases hq with rfl | rfl
      · exact hac _ (hyp.trans hqy)
      · exact h₂ y hwa hwb hqy hyp
      · exact h₁ y hwa hwb hqy hyp
      · exact hac _ (hyp.trans hqy)
  intro w h
  by_cases hwa : w = a
  · -- rotate a cycle through the contracted vertex to its next vertex
    obtain ⟨x, hwx, hxw⟩ := path_first h
    exact key x (hwa ▸ hwx.1.symm) (TransGen.tail' hxw hwx)
  · exact key w hwa h

end Contract

/-! ## Redundant edges -/

/-- The edges that no longer path implies. -/
def Reduced (E : V → V → Prop) (u v : V) : Prop :=
  E u v ∧ ¬ ∃ x, x ≠ u ∧ ReflTransGen E u x ∧ E x v

theorem path_reduced [DecidableEq V] {E : V → V → Prop} (hac : Acyclic E) (s : Finset V)
    (hs : ∀ u v, E u v → u ∈ s ∧ v ∈ s) {u v : V} (h : TransGen E u v) :
    TransGen (Reduced E) u v := by
  classical
  -- induction on the number of vertices strictly between the two ends
  let between : V → V → Finset V := fun u v => s.filter fun x => TransGen E u x ∧ TransGen E x v
  have hmem : ∀ {u v x}, TransGen E u x → TransGen E x v → x ∈ between u v := by
    intro u v x hux hxv
    obtain ⟨y, hxy, _⟩ := path_first hxv
    exact Finset.mem_filter.mpr ⟨(hs x y hxy).1, hux, hxv⟩
  have hlt : ∀ {u v x}, TransGen E u x → TransGen E x v →
      (between u x).card < (between u v).card ∧ (between x v).card < (between u v).card := by
    intro u v x hux hxv
    refine ⟨Finset.card_lt_card ⟨?_, ?_⟩, Finset.card_lt_card ⟨?_, ?_⟩⟩
    · intro y hy
      obtain ⟨hys, huy, hyx⟩ := Finset.mem_filter.mp hy
      exact Finset.mem_filter.mpr ⟨hys, huy, hyx.trans hxv⟩
    · intro hsub
      exact hac x (Finset.mem_filter.mp (hsub (hmem hux hxv))).2.2
    · intro y hy
      obtain ⟨hys, hxy, hyv⟩ := Finset.mem_filter.mp hy
      exact Finset.mem_filter.mpr ⟨hys, hux.trans hxy, hyv⟩
    · intro hsub
      exact hac x (Finset.mem_filter.mp (hsub (hmem hux hxv))).2.1
  generalize hn : (between u v).card = n
  induction n using Nat.strong_induction_on generalizing u v with
  | _ n ih =>
    by_cases hx : ∃ x, TransGen E u x ∧ TransGen E x v
    · obtain ⟨x, hux, hxv⟩ := hx
      obtain ⟨h1, h2⟩ := hlt hux hxv
      exact (ih _ (hn ▸ h1) hux rfl).trans (ih _ (hn ▸ h2) hxv rfl)
    · obtain ⟨y, huy, hyv⟩ := path_first h
      have hy : y = v := by
        by_contra hne
        exact hx ⟨y, TransGen.single huy, path_of_refl hyv hne⟩
      refine TransGen.single ⟨hy ▸ huy, ?_⟩
      rintro ⟨x, hxu, hux, hxv⟩
      exact hx ⟨x, path_of_refl hux (Ne.symm hxu), TransGen.single hxv⟩

/-! ## Lists of edges -/

/-- The graph of a list of edges. -/
def Adj (E : List (V × V)) (u v : V) : Prop := (u, v) ∈ E

/-- Reachability, by recursion on the edges: a path uses the first edge not at all or once. -/
def reach [DecidableEq V] : List (V × V) → V → V → Bool
  | [], a, b => a == b
  | e :: E, a, b => reach E a b || (reach E a e.1 && reach E e.2 b)

theorem reach_iff [DecidableEq V] (E : List (V × V)) (a b : V) :
    reach E a b = true ↔ ReflTransGen (Adj E) a b := by
  induction E generalizing a b with
  | nil =>
    rw [reach, beq_iff_eq]
    constructor
    · rintro rfl
      exact ReflTransGen.refl
    · intro h
      rcases reflTransGen_iff_eq_or_transGen.mp h with rfl | h
      · rfl
      · obtain ⟨x, hx, _⟩ := path_first h
        cases hx
  | cons e E ih =>
    have hsub : ∀ u v, Adj E u v → Adj (e :: E) u v := fun u v h => List.mem_cons_of_mem e h
    rw [reach, Bool.or_eq_true, Bool.and_eq_true, ih, ih, ih]
    constructor
    · rintro (h | ⟨h1, h2⟩)
      · exact ReflTransGen.mono hsub _ _ h
      · refine (ReflTransGen.mono hsub _ _ h1).trans (ReflTransGen.head ?_ (ReflTransGen.mono hsub _ _ h2))
        exact List.mem_cons_self
    · intro h
      induction h with
      | refl => exact Or.inl ReflTransGen.refl
      | tail _ h ih' =>
        rcases List.mem_cons.mp h with rfl | h
        · refine Or.inr ⟨?_, ReflTransGen.refl⟩
          rcases ih' with h' | ⟨h1, _⟩
          · exact h'
          · exact h1
        · rcases ih' with h' | ⟨h1, h2⟩
          · exact Or.inl (h'.tail h)
          · exact Or.inr ⟨h1, h2.tail h⟩

end Edges
