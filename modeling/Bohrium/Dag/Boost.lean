import Bohrium.Library.BlockGraph
import Mathlib.Order.WellFounded
import Mathlib.Data.Fintype.EquivFin

/-! # Graph algorithms

The three algorithms of the Boost graph library that the fusers call, as a parameter with what the
library documents about them, and plain implementations that meet it. Breadth-first search is not a
parameter: the visitors of `path_exist` only ask for reachability, which `Edges.reach` decides. -/
namespace Bohrium
open Relation Edges Reorder
set_option autoImplicit false

/-- Every edge is between vertices below `n`. -/
def InRange (n : ℕ) (E : List (ℕ × ℕ)) : Prop := ∀ e ∈ E, e.1 < n ∧ e.2 < n

/-- Both directions of every edge, as an undirected graph has them. -/
def undirected (E : List (ℕ × ℕ)) : List (ℕ × ℕ) := E ++ E.map Prod.swap

/-- `topological_sort` writes a reverse topological order and throws `not_a_dag` (`none`) on a
cycle; the component functions return the number of components and the component of a vertex. -/
structure Boost where
  topologicalSort : ℕ → List (ℕ × ℕ) → Option (List ℕ)
  connectedComponents : ℕ → List (ℕ × ℕ) → ℕ × (ℕ → ℕ)
  strongComponents : ℕ → List (ℕ × ℕ) → ℕ × (ℕ → ℕ)
  topologicalSort_acyclic : ∀ n E, InRange n E → Acyclic (Adj E) → ∃ order,
    topologicalSort n E = some order ∧ order.Perm (List.range n) ∧
      ∀ u v, (u, v) ∈ E → [v, u].Sublist order
  topologicalSort_cyclic : ∀ n E, InRange n E → ¬ Acyclic (Adj E) → topologicalSort n E = none
  connectedComponents_lt : ∀ n E, InRange n E → ∀ u < n,
    (connectedComponents n E).2 u < (connectedComponents n E).1
  connectedComponents_iff : ∀ n E, InRange n E → ∀ u < n, ∀ v < n,
    ((connectedComponents n E).2 u = (connectedComponents n E).2 v ↔
      ReflTransGen (Adj (undirected E)) u v)
  strongComponents_lt : ∀ n E, InRange n E → ∀ u < n,
    (strongComponents n E).2 u < (strongComponents n E).1
  strongComponents_iff : ∀ n E, InRange n E → ∀ u < n, ∀ v < n,
    ((strongComponents n E).2 u = (strongComponents n E).2 v ↔
      ReflTransGen (Adj E) u v ∧ ReflTransGen (Adj E) v u)

/-! ## A topological sort -/

/-- Take the first remaining vertex without a remaining predecessor, until none is left. -/
def topoLoop (E : List (ℕ × ℕ)) : ℕ → List ℕ → Option (List ℕ)
  | _, [] => some []
  | 0, _ :: _ => none
  | fuel + 1, v :: vs =>
    match (v :: vs).find? fun w => !E.any fun e => e.2 == w && e.1 ∈ v :: vs with
    | none => none
    | some w => (topoLoop E fuel ((v :: vs).erase w)).map (w :: ·)

theorem exists_source {E : List (ℕ × ℕ)} (hac : Acyclic (Adj E)) {vs : List ℕ} (hne : vs ≠ []) :
    ∃ w ∈ vs, ∀ u ∈ vs, (u, w) ∉ E := by
  let r : {x // x ∈ vs} → {x // x ∈ vs} → Prop := fun x y => TransGen (Adj E) x.1 y.1
  have : Finite {x // x ∈ vs} := List.finite_toSet vs
  have htrans : IsTrans _ r := ⟨fun _ _ _ h₁ h₂ => h₁.trans h₂⟩
  have hirr : Std.Irrefl r := ⟨fun x h => hac x.1 h⟩
  have hwf : WellFounded r := Finite.wellFounded_of_trans_of_irrefl r
  obtain ⟨v, hv⟩ := List.exists_mem_of_ne_nil vs hne
  obtain ⟨⟨w, hw⟩, _, hmin⟩ := hwf.has_min Set.univ ⟨⟨v, hv⟩, trivial⟩
  refine ⟨w, hw, fun u hu he => hmin ⟨u, hu⟩ trivial (TransGen.single he)⟩

theorem topoLoop_isSome {E : List (ℕ × ℕ)} (hac : Acyclic (Adj E)) (fuel : ℕ) (vs : List ℕ)
    (hf : vs.length ≤ fuel) : ∃ order, topoLoop E fuel vs = some order := by
  induction fuel generalizing vs with
  | zero =>
    cases vs with
    | nil => exact ⟨[], rfl⟩
    | cons v vs => simp at hf
  | succ fuel ih =>
    cases vs with
    | nil => exact ⟨[], rfl⟩
    | cons v vs =>
      obtain ⟨w, hw, hsrc⟩ := exists_source hac (List.cons_ne_nil v vs)
      rw [topoLoop]
      cases hfind : (v :: vs).find? fun w => !E.any fun e => e.2 == w && e.1 ∈ v :: vs with
      | none =>
        have := List.find?_eq_none.mp hfind w hw
        simp only [Bool.not_eq_true', Bool.not_eq_false, List.any_eq_true, Bool.and_eq_true, beq_iff_eq,
          decide_eq_true_eq] at this
        obtain ⟨e, he, rfl, hmem⟩ := this
        exact absurd he (hsrc e.1 hmem)
      | some w' =>
        have hw' := List.mem_of_find?_eq_some hfind
        have hlen : ((v :: vs).erase w').length ≤ fuel := by
          rw [List.length_erase_of_mem hw']
          simp at hf ⊢
          omega
        obtain ⟨order, ho⟩ := ih _ hlen
        exact ⟨w' :: order, by simp [ho]⟩

theorem topoLoop_spec {E : List (ℕ × ℕ)} (fuel : ℕ) (vs : List ℕ) {order : List ℕ}
    (h : topoLoop E fuel vs = some order) :
    order.Perm vs ∧ (vs.Nodup → ∀ u v, u ∈ vs → v ∈ vs → (u, v) ∈ E → [u, v].Sublist order) := by
  induction fuel generalizing vs order with
  | zero =>
    cases vs with
    | nil =>
      obtain rfl : [] = order := by simpa [topoLoop] using h
      exact ⟨List.Perm.refl _, by simp⟩
    | cons v vs => simp [topoLoop] at h
  | succ fuel ih =>
    cases vs with
    | nil =>
      obtain rfl : [] = order := by simpa [topoLoop] using h
      exact ⟨List.Perm.refl _, by simp⟩
    | cons v vs =>
      rw [topoLoop] at h
      cases hfind : (v :: vs).find? fun w => !E.any fun e => e.2 == w && e.1 ∈ v :: vs with
      | none =>
        rw [hfind] at h
        cases h
      | some w =>
        simp only [hfind, Option.map_eq_some_iff] at h
        obtain ⟨rest, hrest, rfl⟩ := h
        obtain ⟨hperm, hedge⟩ := ih _ hrest
        have hw := List.mem_of_find?_eq_some hfind
        have hsrc := List.find?_some hfind
        simp only [Bool.not_eq_true', List.any_eq_false, Bool.and_eq_true, beq_iff_eq,
          decide_eq_true_eq, not_and] at hsrc
        refine ⟨(hperm.cons w).trans (List.perm_cons_erase hw).symm, fun hnd u x hu hx he => ?_⟩
        rw [pair_sublist_cons]
        have hxw : x ≠ w := fun e => hsrc (u, x) he e hu
        have hx' : x ∈ (v :: vs).erase w := (List.mem_erase_of_ne hxw).mpr hx
        by_cases huw : u = w
        · exact Or.inr ⟨huw, hperm.mem_iff.mpr hx'⟩
        · exact Or.inl (hedge (hnd.erase w) u x ((List.mem_erase_of_ne huw).mpr hu) hx' he)

/-! ## Components -/

/-- The first vertex below `n` related to `u`. -/
def representative (n : ℕ) (r : ℕ → ℕ → Bool) (u : ℕ) : ℕ := ((List.range n).find? (r u)).getD u

theorem representative_spec {n : ℕ} {r : ℕ → ℕ → Bool} (hrefl : ∀ u, r u u = true) {u : ℕ} (hu : u < n) :
    representative n r u < n ∧ r u (representative n r u) = true := by
  unfold representative
  cases h : (List.range n).find? (r u) with
  | none => exact absurd (hrefl u) (by simpa using List.find?_eq_none.mp h u (List.mem_range.mpr hu))
  | some w => exact ⟨List.mem_range.mp (List.mem_of_find?_eq_some h), List.find?_some h⟩

theorem representative_eq_iff {n : ℕ} {r : ℕ → ℕ → Bool} (hrefl : ∀ u, r u u = true)
    (hsymm : ∀ u v, r u v = true → r v u = true)
    (htrans : ∀ u v w, r u v = true → r v w = true → r u w = true) {u v : ℕ} (hu : u < n) (hv : v < n) :
    representative n r u = representative n r v ↔ r u v = true := by
  constructor
  · intro h
    have h1 := (representative_spec hrefl hu).2
    have h2 := (representative_spec hrefl hv).2
    exact htrans _ _ _ h1 (h ▸ hsymm _ _ h2)
  · intro h
    have : r u = r v := by
      funext w
      rw [Bool.eq_iff_iff]
      exact ⟨htrans _ _ _ (hsymm _ _ h), htrans _ _ _ h⟩
    unfold representative
    rw [this]
    cases hf : (List.range n).find? (r v) with
    | none => exact absurd (hrefl v) (by simpa using List.find?_eq_none.mp hf v (List.mem_range.mpr hv))
    | some w => rfl

theorem adj_undirected_symm {E : List (ℕ × ℕ)} {u v : ℕ} (h : Adj (undirected E) u v) :
    Adj (undirected E) v u := by
  rcases List.mem_append.mp h with h | h
  · exact List.mem_append_right _ (List.mem_map.mpr ⟨(u, v), h, rfl⟩)
  · obtain ⟨e, he, hswap⟩ := List.mem_map.mp h
    obtain rfl : e = (v, u) := by rw [← Prod.swap_swap e, hswap]; rfl
    exact List.mem_append_left _ he

/-- Implementations that meet the documented behaviour. -/
def plainBoost : Boost where
  topologicalSort n E := (topoLoop E n (List.range n)).map List.reverse
  connectedComponents n E := (n, representative n (reach (undirected E)))
  strongComponents n E := (n, representative n fun u v => reach E u v && reach E v u)
  topologicalSort_acyclic n E hin hac := by
    obtain ⟨order, ho⟩ := topoLoop_isSome hac n (List.range n) (by simp)
    obtain ⟨hperm, hedge⟩ := topoLoop_spec n _ ho
    refine ⟨order.reverse, by simp [ho], (List.reverse_perm order).trans hperm, fun u v he => ?_⟩
    obtain ⟨hu, hv⟩ := hin _ he
    have := hedge List.nodup_range u v (List.mem_range.mpr hu) (List.mem_range.mpr hv) he
    simpa using List.reverse_sublist.mpr this
  topologicalSort_cyclic n E hin hcyc := by
    cases ho : topoLoop E n (List.range n) with
    | none => rfl
    | some order =>
      obtain ⟨hperm, hedge⟩ := topoLoop_spec n _ ho
      refine absurd (fun v hv => ?_) hcyc
      have hnd : order.Nodup := hperm.nodup_iff.mpr List.nodup_range
      have hvv := BlockGraph.path_sublist hnd (fun a b he => hedge List.nodup_range a b
        (List.mem_range.mpr (hin _ he).1) (List.mem_range.mpr (hin _ he).2) he) hv
      exact not_pair_sublist_swap hnd hvv hvv
  connectedComponents_lt n E _ u hu :=
    (representative_spec (fun u => (reach_iff _ u u).mpr ReflTransGen.refl) hu).1
  connectedComponents_iff n E _ u hu v hv := by
    rw [← reach_iff]
    refine representative_eq_iff (fun u => (reach_iff _ u u).mpr ReflTransGen.refl) ?_ ?_ hu hv
    · intro u v h
      rw [reach_iff] at h ⊢
      have hsymm : Std.Symm (Adj (undirected E)) := ⟨fun _ _ => adj_undirected_symm⟩
      exact ReflTransGen.stdSymm.symm _ _ h
    · intro u v w h₁ h₂
      rw [reach_iff] at h₁ h₂ ⊢
      exact h₁.trans h₂
  strongComponents_lt n E _ u hu :=
    (representative_spec (r := fun u v => reach E u v && reach E v u)
      (fun u => by simp [(reach_iff E u u).mpr ReflTransGen.refl]) hu).1
  strongComponents_iff n E _ u hu v hv := by
    rw [← reach_iff, ← reach_iff, ← Bool.and_eq_true]
    refine representative_eq_iff (r := fun u v => reach E u v && reach E v u)
      (fun u => by simp [(reach_iff E u u).mpr ReflTransGen.refl]) ?_ ?_ hu hv
    · intro u v h
      rwa [Bool.and_comm]
    · intro u v w h₁ h₂
      simp only [Bool.and_eq_true, reach_iff] at h₁ h₂ ⊢
      exact ⟨h₁.1.trans h₂.1, h₂.2.trans h₁.2⟩

end Bohrium
