import Bohrium.Library.Digraph
import Mathlib.Data.List.Flatten

/-! # Graphs of blocks

A block graph groups items into blocks, one at each vertex, and orders the blocks by edges. It is
valid for a precedence relation `R` when no item stands in two blocks, the graph is acyclic, every
precedence inside a block is kept by the block's list, every precedence between blocks is covered
by a path, and every edge is backed by some precedence. Validity survives merging blocks, dropping
implied edges, and taking a convex part; a topological order of a valid graph lists its items in an
order that respects `R`. -/
namespace Edges
open Relation Reorder
set_option autoImplicit false

variable {V W ι : Type*}

structure BlockGraph (V ι : Type*) where
  block : V → List ι
  edge : V → V → Prop

namespace BlockGraph

structure Valid (R : ι → ι → Prop) (G : BlockGraph V ι) : Prop where
  nodup : ∀ v, (G.block v).Nodup
  disjoint : ∀ u v i, i ∈ G.block u → i ∈ G.block v → u = v
  acyclic : Acyclic G.edge
  ordered : ∀ v i j, i ∈ G.block v → j ∈ G.block v → R i j → [i, j].Sublist (G.block v)
  path : ∀ u v i j, u ≠ v → i ∈ G.block u → j ∈ G.block v → R i j → TransGen G.edge u v
  backed : ∀ u v, G.edge u v → ∃ i ∈ G.block u, ∃ j ∈ G.block v, R i j

variable {R : ι → ι → Prop} {G : BlockGraph V ι}

/-- Blocks merged along a map of the vertices. The new blocks keep the order of the old ones and
list merged blocks in an order that respects `R`. -/
theorem Valid.quotient (h : G.Valid R) (f : V → W) (G' : BlockGraph W ι)
    (hedge : ∀ u' v', G'.edge u' v' ↔ Image f G.edge u' v')
    (hmem : ∀ w i, i ∈ G'.block w ↔ ∃ v, f v = w ∧ i ∈ G.block v)
    (hnd : ∀ w, (G'.block w).Nodup)
    (hsub : ∀ v i j, [i, j].Sublist (G.block v) → [i, j].Sublist (G'.block (f v)))
    (hord : ∀ u v i j, u ≠ v → f u = f v → i ∈ G.block u → j ∈ G.block v → R i j →
      [i, j].Sublist (G'.block (f u)))
    (hac : Acyclic G'.edge) : G'.Valid R where
  nodup := hnd
  disjoint := by
    intro u' v' i hu hv
    obtain ⟨u, rfl, hiu⟩ := (hmem u' i).mp hu
    obtain ⟨v, rfl, hiv⟩ := (hmem v' i).mp hv
    rw [h.disjoint u v i hiu hiv]
  acyclic := hac
  ordered := by
    intro w i j hi hj hR
    obtain ⟨u, rfl, hiu⟩ := (hmem w i).mp hi
    obtain ⟨v, hv, hjv⟩ := (hmem _ j).mp hj
    by_cases huv : u = v
    · subst huv
      exact hsub u i j (h.ordered u i j hiu hjv hR)
    · exact hord u v i j huv hv.symm hiu hjv hR
  path := by
    intro u' v' i j hne hi hj hR
    obtain ⟨u, rfl, hiu⟩ := (hmem u' i).mp hi
    obtain ⟨v, rfl, hjv⟩ := (hmem v' j).mp hj
    have huv : u ≠ v := fun e => hne (congrArg f e)
    refine (path_map f (fun x y hxy => ?_) (h.path u v i j huv hiu hjv hR)).resolve_left hne
    by_cases hf : f x = f y
    · exact Or.inl hf
    · exact Or.inr ((hedge _ _).mpr ⟨hf, x, y, hxy, rfl, rfl⟩)
  backed := by
    intro u' v' huv
    obtain ⟨_, u, v, he, rfl, rfl⟩ := (hedge u' v').mp huv
    obtain ⟨i, hi, j, hj, hR⟩ := h.backed u v he
    exact ⟨i, (hmem _ i).mpr ⟨u, rfl, hi⟩, j, (hmem _ j).mpr ⟨v, rfl, hj⟩, hR⟩

/-- Two blocks merged into one, when no third vertex lies between them. -/
theorem Valid.merge [DecidableEq V] (h : G.Valid R) {a b : V} (hab : a ≠ b) (G' : BlockGraph V ι)
    (hedge : ∀ u v, G'.edge u v ↔ Image (contract a b) G.edge u v)
    (hother : ∀ v, v ≠ a → v ≠ b → G'.block v = G.block v) (hb : G'.block b = [])
    (ha : G'.block a = G.block a ++ G.block b ∧ ¬ TransGen G.edge b a ∨
      G'.block a = G.block b ++ G.block a ∧ ¬ TransGen G.edge a b)
    (h₁ : ∀ x, x ≠ a → x ≠ b → TransGen G.edge a x → ¬ TransGen G.edge x b)
    (h₂ : ∀ x, x ≠ a → x ≠ b → TransGen G.edge b x → ¬ TransGen G.edge x a) : G'.Valid R := by
  have hmema : ∀ i, i ∈ G'.block a ↔ i ∈ G.block a ∨ i ∈ G.block b := by
    intro i
    rcases ha with ⟨ha, _⟩ | ⟨ha, _⟩ <;> rw [ha, List.mem_append]
    exact or_comm
  have hfa : contract a b a = a := if_neg hab
  have hfb : contract a b b = a := if_pos rfl
  refine h.quotient (contract a b) G' hedge ?_ ?_ ?_ ?_ ?_
  · intro w i
    by_cases hwa : w = a
    · subst hwa
      rw [hmema]
      constructor
      · rintro (hi | hi)
        · exact ⟨w, hfa, hi⟩
        · exact ⟨b, hfb, hi⟩
      · rintro ⟨v, hv, hi⟩
        rcases (contract_eq_iff hab).mp (hv.trans hfa.symm) with rfl | ⟨rfl, _⟩ | ⟨rfl, _⟩
        · exact Or.inl hi
        · exact Or.inl hi
        · exact Or.inr hi
    · by_cases hwb : w = b
      · subst hwb
        rw [hb]
        constructor
        · intro hi
          cases hi
        · rintro ⟨v, hv, _⟩
          unfold contract at hv
          split_ifs at hv with hvb
          · exact absurd hv.symm hwa
          · exact absurd hv hvb
      · rw [hother w hwa hwb]
        constructor
        · intro hi
          exact ⟨w, if_neg hwb, hi⟩
        · rintro ⟨v, hv, hi⟩
          unfold contract at hv
          split_ifs at hv with hvb
          · exact absurd hv.symm hwa
          · exact hv ▸ hi
  · intro w
    by_cases hwa : w = a
    · subst hwa
      have hdis : (G.block w).Disjoint (G.block b) := fun i hi hj => hab (h.disjoint w b i hi hj)
      rcases ha with ⟨ha, _⟩ | ⟨ha, _⟩
      · rw [ha]
        exact List.nodup_append'.mpr ⟨h.nodup w, h.nodup b, hdis⟩
      · rw [ha]
        exact List.nodup_append'.mpr ⟨h.nodup b, h.nodup w, hdis.symm⟩
    · by_cases hwb : w = b
      · rw [hwb, hb]
        exact List.nodup_nil
      · rw [hother w hwa hwb]
        exact h.nodup w
  · intro v i j hij
    unfold contract
    split_ifs with hvb
    · subst hvb
      rcases ha with ⟨ha, _⟩ | ⟨ha, _⟩ <;> rw [ha]
      · exact hij.trans (List.sublist_append_right _ _)
      · exact hij.trans (List.sublist_append_left _ _)
    · by_cases hva : v = a
      · subst hva
        rcases ha with ⟨ha, _⟩ | ⟨ha, _⟩ <;> rw [ha]
        · exact hij.trans (List.sublist_append_left _ _)
        · exact hij.trans (List.sublist_append_right _ _)
      · rw [hother v hva hvb]
        exact hij
  · intro u v i j huv hf hi hj hR
    have hp := h.path u v i j huv hi hj hR
    have hpair : ∀ {l₁ l₂ : List ι}, i ∈ l₁ → j ∈ l₂ → [i, j].Sublist (l₁ ++ l₂) := fun h₁ h₂ =>
      (List.singleton_sublist.mpr h₁).append (List.singleton_sublist.mpr h₂)
    rcases (contract_eq_iff hab).mp hf with rfl | ⟨rfl, rfl⟩ | ⟨rfl, rfl⟩
    · exact absurd rfl huv
    · rw [hfa]
      rcases ha with ⟨ha, _⟩ | ⟨_, hn⟩
      · exact ha ▸ hpair hi hj
      · exact absurd hp hn
    · rw [hfb]
      rcases ha with ⟨_, hn⟩ | ⟨ha, _⟩
      · exact absurd hp hn
      · exact ha ▸ hpair hi hj
  · intro w hw
    exact acyclic_contract h.acyclic hab h₁ h₂ w (TransGen.mono (fun u v => (hedge u v).mp) w w hw)

/-- Fewer edges, if every path stays. -/
theorem Valid.remove_edges (h : G.Valid R) (G' : BlockGraph V ι) (hblock : G'.block = G.block)
    (hsub : ∀ u v, G'.edge u v → G.edge u v)
    (hpath : ∀ u v, TransGen G.edge u v → TransGen G'.edge u v) : G'.Valid R where
  nodup := by
    rw [hblock]
    exact h.nodup
  disjoint := by
    rw [hblock]
    exact h.disjoint
  acyclic := h.acyclic.mono hsub
  ordered := by
    rw [hblock]
    exact h.ordered
  path := by
    rw [hblock]
    intro u v i j huv hi hj hR
    exact hpath u v (h.path u v i j huv hi hj hR)
  backed := by
    rw [hblock]
    exact fun u v huv => h.backed u v (hsub u v huv)

/-- A part of the vertices, renamed, if no path between two of them leaves the part. -/
theorem Valid.restrict (h : G.Valid R) (g : W → V) (hg : Function.Injective g) (G' : BlockGraph W ι)
    (hblock : ∀ w, G'.block w = G.block (g w)) (hedge : ∀ u v, G'.edge u v ↔ G.edge (g u) (g v))
    (hconvex : ∀ u v x, TransGen G.edge (g u) x → TransGen G.edge x (g v) → ∃ w, g w = x) :
    G'.Valid R where
  nodup := by
    intro w
    rw [hblock]
    exact h.nodup (g w)
  disjoint := by
    intro u v i hi hj
    rw [hblock] at hi hj
    exact hg (h.disjoint _ _ i hi hj)
  acyclic := h.acyclic.comap g fun u v huv => (hedge u v).mp huv
  ordered := by
    intro w i j
    rw [hblock]
    exact h.ordered (g w) i j
  path := by
    intro u v i j huv hi hj hR
    rw [hblock] at hi hj
    have hp := h.path (g u) (g v) i j (fun e => huv (hg e)) hi hj hR
    -- lift the path edge by edge; its inner vertices are in the part
    have lift : ∀ x, TransGen G.edge x (g v) → ∀ w, g w = x → (∀ y, TransGen G.edge x y →
        TransGen G.edge y (g v) → ∃ w, g w = y) → TransGen G'.edge w v := by
      intro x hx
      induction hx using TransGen.head_induction_on with
      | single hxy =>
        rintro w rfl _
        exact TransGen.single ((hedge w v).mpr hxy)
      | head hxy hy ih =>
        rintro w rfl hin
        obtain ⟨w', rfl⟩ := hin _ (TransGen.single hxy) hy
        refine TransGen.head ((hedge w w').mpr hxy) (ih w' rfl ?_)
        intro y hy' hyv
        exact hin y (TransGen.head hxy hy') hyv
    exact lift (g u) hp u rfl (hconvex u v)
  backed := by
    intro u v huv
    rw [hblock, hblock]
    exact h.backed _ _ ((hedge u v).mp huv)

/-- A topological order lists the ends of a path in order. -/
theorem path_sublist {E : V → V → Prop} {order : List V} (hnd : order.Nodup)
    (htopo : ∀ u v, E u v → [u, v].Sublist order) {u v : V} (h : TransGen E u v) :
    [u, v].Sublist order := by
  induction h with
  | single h => exact htopo _ _ h
  | tail _ h ih => exact pair_sublist_trans hnd ih (htopo _ _ h)

/-- The blocks of a valid graph in a topological order respect `R`, also when some are left out. -/
theorem Valid.order_respects (h : G.Valid R) {order : List V} (hnd : order.Nodup)
    (htopo : ∀ u v, G.edge u v → [u, v].Sublist order) (p : V → Bool) {i j : ι} {u v : V}
    (hi : i ∈ G.block u) (hj : j ∈ G.block v) (hu : u ∈ order.filter p) (hv : v ∈ order.filter p)
    (hR : R i j) : [i, j].Sublist ((order.filter p).flatMap G.block) := by
  by_cases huv : u = v
  · subst huv
    have hblock := (List.singleton_sublist.mpr hu).flatMap G.block
    rw [List.flatMap_singleton] at hblock
    exact (h.ordered u i j hi hj hR).trans hblock
  · have hpair : [u, v].Sublist (order.filter p) := by
      have hkept := (path_sublist hnd htopo (h.path u v i j huv hi hj hR)).filter p
      simpa [(List.mem_filter.mp hu).2, (List.mem_filter.mp hv).2] using hkept
    refine List.Sublist.trans ?_ (hpair.flatMap G.block)
    simp only [List.flatMap_cons, List.flatMap_nil, List.append_nil]
    exact (List.singleton_sublist.mpr hi).append (List.singleton_sublist.mpr hj)

end BlockGraph
end Edges
