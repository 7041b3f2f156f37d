import Bohrium.Dag.Sound

/-! # Gentle and greedy fusion keep the invariant

Each round merges two vertices with nothing between them or removes an implied edge, so the graph
stays sound and keeps its instructions. -/
namespace Bohrium
open Relation Edges
set_option autoImplicit false
namespace GraphDW

variable (model : FuseModel) {l : List BhInstruction} {g : GraphDW}

/-! ## Gentle fusion -/

theorem Sound.mem_outNeighbours (h : g.Sound l) {v w : ℕ} : w ∈ g.outNeighbours v ↔ (v, w) ∈ g.edgesD := by
  simp only [outNeighbours, List.mem_filter, List.mem_range, decide_eq_true_eq]
  exact ⟨And.right, fun he => ⟨(h.inRange _ he).2, he⟩⟩

theorem Sound.mem_inNeighbours (h : g.Sound l) {v w : ℕ} : w ∈ g.inNeighbours v ↔ (w, v) ∈ g.edgesD := by
  simp only [inNeighbours, List.mem_filter, List.mem_range, decide_eq_true_eq]
  exact ⟨And.right, fun he => ⟨(h.inRange _ he).1, he⟩⟩

/-- A vertex that ends in (or starts from) its only neighbour. -/
theorem singleEnding_cases {v w : ℕ} {wBeforeV : Bool} (h : g.singleEnding v = some (w, wBeforeV)) :
    (wBeforeV = false ∧ g.inNeighbours v = [] ∧ g.outNeighbours v = [w]) ∨
      (wBeforeV = true ∧ g.inNeighbours v = [w] ∧ g.outNeighbours v = []) := by
  unfold singleEnding at h
  split at h
  · rename_i hin hout
    split_ifs at h
    obtain ⟨rfl, rfl⟩ := Prod.mk.inj (Option.some.inj h)
    exact Or.inl ⟨rfl, hin, hout⟩
  · rename_i hin hout
    split_ifs at h
    obtain ⟨rfl, rfl⟩ := Prod.mk.inj (Option.some.inj h)
    exact Or.inr ⟨rfl, hin, hout⟩
  · cases h

/-- What a merge needs to keep the graph sound. -/
structure Mergeable (g : GraphDW) (a b : ℕ) (aBeforeB : Bool) : Prop where
  ne : a ≠ b
  live_left : g.Live a
  live_right : g.Live b
  order : if aBeforeB then ¬ TransGen (Adj g.edgesD) b a else ¬ TransGen (Adj g.edgesD) a b
  forth : ∀ x, x ≠ a → x ≠ b → TransGen (Adj g.edgesD) a x → ¬ TransGen (Adj g.edgesD) x b
  back : ∀ x, x ≠ a → x ≠ b → TransGen (Adj g.edgesD) b x → ¬ TransGen (Adj g.edgesD) x a

theorem Sound.merge (h : g.Sound l) {a b : ℕ} {aBeforeB : Bool} (hm : Mergeable g a b aBeforeB) :
    (g.mergeVertices model l a b aBeforeB).Sound l :=
  h.mergeVertices model aBeforeB hm.ne hm.live_left hm.live_right hm.order hm.forth hm.back

theorem mergeable_of_singleEnding (h : g.Sound l) {v w : ℕ} {wBeforeV : Bool}
    (hse : g.singleEnding v = some (w, wBeforeV)) : Mergeable g w v wBeforeV := by
  have hac : Acyclic (Adj g.edgesD) := h.valid.acyclic
  rcases singleEnding_cases hse with ⟨rfl, hin, hout⟩ | ⟨rfl, hin, hout⟩
  · have hvw : (v, w) ∈ g.edgesD := h.mem_outNeighbours.mp (by simp [hout])
    have honly : ∀ x, (v, x) ∈ g.edgesD → x = w := fun x hx => by
      simpa [hout] using h.mem_outNeighbours.mpr hx
    have hnone : ∀ x, ¬ TransGen (Adj g.edgesD) x v := by
      intro x hx
      obtain ⟨y, _, hy⟩ := path_last hx
      simpa [hin] using h.mem_inNeighbours.mpr hy
    obtain ⟨hlv, hlw⟩ := h.live_of_edge hvw
    refine ⟨Ne.symm (h.edge_ne hvw), hlw, hlv, hnone w, fun x _ _ _ => hnone x, ?_⟩
    intro x hxw _ hvx hxw'
    obtain ⟨y, hvy, hyx⟩ := path_first hvx
    obtain rfl := honly y hvy
    exact hac y (TransGen.trans_right hyx hxw')
  · have hwv : (w, v) ∈ g.edgesD := h.mem_inNeighbours.mp (by simp [hin])
    have honly : ∀ x, (x, v) ∈ g.edgesD → x = w := fun x hx => by
      simpa [hin] using h.mem_inNeighbours.mpr hx
    have hnone : ∀ x, ¬ TransGen (Adj g.edgesD) v x := by
      intro x hx
      obtain ⟨y, hy, _⟩ := path_first hx
      simpa [hout] using h.mem_outNeighbours.mpr hy
    obtain ⟨hlw, hlv⟩ := h.live_of_edge hwv
    refine ⟨h.edge_ne hwv, hlw, hlv, hnone w, ?_, fun x _ _ hx => absurd hx (hnone x)⟩
    intro x _ _ hwx hxv
    obtain ⟨y, hxy, hyv⟩ := path_last hxv
    obtain rfl := honly y hyv
    exact hac y (TransGen.trans_left hwx hxy)

/-- What every merge of `fuse_gently` keeps, its loop keeps. -/
theorem fuseGentlyLoop_induction {P : GraphDW → Prop}
    (hstep : ∀ g v w wBeforeV, P g → g.singleEnding v = some (w, wBeforeV) →
      (g.kernel v).fusibleKernel model l (g.kernel w) = true → P (g.mergeVertices model l w v wBeforeV))
    (fuel : ℕ) (vs : List ℕ) (h : P g) : P (fuseGentlyLoop model l fuel vs g) := by
  induction fuel generalizing g vs with
  | zero => exact h
  | succ fuel ih =>
    rw [fuseGentlyLoop]
    cases hf : vs.findSome? fun v => (g.singleEnding v).map fun p => (v, p.1, p.2) with
    | none => exact h
    | some t =>
      obtain ⟨v, w, wBeforeV⟩ := t
      obtain ⟨v', _, hv'⟩ := List.exists_of_findSome?_eq_some hf
      obtain ⟨p, hp, heq⟩ := Option.map_eq_some_iff.mp hv'
      obtain ⟨rfl, hw⟩ := Prod.mk.inj heq
      dsimp only
      split_ifs with hfus
      · exact ih _ (hstep g v' w wBeforeV h (hp.trans (congrArg some hw)) hfus)
      · exact ih _ h

theorem Sound.fuseGently (h : g.Sound l) : (g.fuseGently model l).Sound l ∧
    ∀ i, (g.fuseGently model l).Holds i ↔ g.Holds i := by
  obtain ⟨hs, hh⟩ := fuseGentlyLoop_induction model (l := l) (g := g)
    (P := fun g' => g'.Sound l ∧ ∀ i, g'.Holds i ↔ g.Holds i) (fun g' v w wBeforeV hg' hse _ => by
      have hm := mergeable_of_singleEnding hg'.1 hse
      refine ⟨hg'.1.merge model hm, fun i => Iff.trans ?_ (hg'.2 i)⟩
      exact holds_mergeVertices model wBeforeV hm.live_left.lt hm.live_right.lt hm.ne i)
    g.numVertices (List.range g.numVertices) ⟨h, fun i => Iff.rfl⟩
  exact ⟨hs.removeClearedVertices, fun i => (holds_removeClearedVertices hs i).trans (hh i)⟩

/-! ## Greedy fusion -/

theorem greatest_mem (e : EdgeW) (es : List EdgeW) : greatest e es ∈ e :: es := by
  unfold greatest
  induction es generalizing e with
  | nil => exact List.mem_cons_self
  | cons f es ih =>
    rw [List.foldl_cons]
    split_ifs
    · exact List.mem_cons_of_mem e (ih f)
    · rcases List.mem_cons.mp (ih e) with h | h
      · exact List.mem_cons.mpr (Or.inl h)
      · exact List.mem_cons_of_mem e (List.mem_cons_of_mem f h)

/-- A path between two vertices orders their dependent instructions. -/
theorem Sound.dependency_of_path (h : g.Sound l) {u v : ℕ} (huv : TransGen (Adj g.edgesD) u v) :
    (g.kernel u).dependency l (g.kernel v) ≠ 1 := by
  intro hdep
  have hne : v ≠ u := by
    rintro rfl
    exact h.valid.acyclic v huv
  rcases BhIrKernel.dependency_cases l (g.kernel u) (g.kernel v) with
    ⟨h0, _⟩ | ⟨_, i, hi, j, hj, hij, hd⟩ | ⟨h1, _⟩
  · omega
  · have hlt : i < j := lt_of_le_of_ne hij fun e => hne (h.valid.disjoint v u i hi (e ▸ hj))
    exact h.valid.acyclic u (huv.trans (h.valid.path v u i j hne hi hj ⟨hlt, hd⟩))
  · omega

/-- A round of greedy fusion removes an implied edge or merges two vertices. -/
theorem greedyStep_cases (h : g.Sound l) {v1 v2 : ℕ} (hne : v1 ≠ v2) (h1 : g.Live v1) (h2 : g.Live v2) :
    (g.greedyStep model l v1 v2 = g.removeEdges v1 v2 ∧
      (pathExist v1 v2 g.edgesD true = true ∨ pathExist v2 v1 g.edgesD true = true)) ∨
    (∃ a b, g.greedyStep model l v1 v2 = g.mergeVertices model l a b true ∧ Mergeable g a b true ∧
      ((a = v1 ∧ b = v2) ∨ (a = v2 ∧ b = v1))) := by
  unfold greedyStep
  by_cases hlong : (pathExist v1 v2 g.edgesD true || pathExist v2 v1 g.edgesD true) = true
  · rw [if_pos hlong]
    exact Or.inl ⟨rfl, Bool.or_eq_true_iff.mp hlong⟩
  · rw [if_neg hlong]
    rw [Bool.or_eq_true, not_or, Bool.not_eq_true, Bool.not_eq_true] at hlong
    have hb12 := fun x => not_between_of_not_long h.valid.acyclic hlong.1 (x := x)
    have hb21 := fun x => not_between_of_not_long h.valid.acyclic hlong.2 (x := x)
    refine Or.inr ?_
    by_cases hdep : (g.kernel v1).dependency l (g.kernel v2) = 1
    · rw [if_pos hdep]
      exact ⟨v2, v1, rfl, ⟨hne.symm, h2, h1, fun hp => h.dependency_of_path hp hdep,
        fun x _ _ => hb21 x, fun x _ _ => hb12 x⟩, Or.inr ⟨rfl, rfl⟩⟩
    · rw [if_neg hdep]
      refine ⟨v1, v2, rfl, ⟨hne, h1, h2, fun hp => ?_, fun x _ _ => hb12 x, fun x _ _ => hb21 x⟩,
        Or.inl ⟨rfl, rfl⟩⟩
      -- without a detour the path is an edge, and an edge is backed by a dependency
      obtain ⟨x, hx, hxv⟩ := path_first hp
      have hx1 : x = v1 := by
        by_contra hxne
        exact hb21 x (TransGen.single hx) (path_of_refl hxv hxne)
      obtain ⟨i, hi, j, hj, hlt, hd⟩ := h.valid.backed v2 v1 (hx1 ▸ hx)
      rcases BhIrKernel.dependency_cases l (g.kernel v1) (g.kernel v2) with
        ⟨_, h0⟩ | ⟨h1', _⟩ | ⟨_, i', hi', j', hj', hlt', hd'⟩
      · rw [h0 i hi j hj] at hd
        cases hd
      · exact hdep h1'
      · have hp' := h.valid.path v1 v2 i' j' hne hi' hj' ⟨hlt', hd'⟩
        exact h.valid.acyclic v1 (hp'.trans hp)

theorem Sound.greedyStep (h : g.Sound l) {v1 v2 : ℕ} (hne : v1 ≠ v2) (h1 : g.Live v1) (h2 : g.Live v2) :
    (g.greedyStep model l v1 v2).Sound l ∧ ∀ i, (g.greedyStep model l v1 v2).Holds i ↔ g.Holds i := by
  rcases greedyStep_cases model h hne h1 h2 with ⟨heq, hlong⟩ | ⟨a, b, heq, hm, _⟩ <;> rw [heq]
  · exact ⟨h.removeEdges hlong, fun i => Iff.rfl⟩
  · exact ⟨h.merge model hm, holds_mergeVertices model true hm.live_left.lt hm.live_right.lt hm.ne⟩

/-- What every round of `fuse_greedy` keeps, its loop keeps. -/
theorem fuseGreedyLoop_induction {P : GraphDW → Prop}
    (hstep : ∀ g, ∀ e ∈ g.edgesW, P g → P (g.greedyStep model l e.source e.target)) (fuel : ℕ)
    (h : P g) : P (fuseGreedyLoop model l fuel g) := by
  induction fuel generalizing g with
  | zero => exact h
  | succ fuel ih =>
    rw [fuseGreedyLoop]
    cases hW : g.edgesW with
    | nil => exact h
    | cons e es => exact ih (hstep g (greatest e es) (hW ▸ greatest_mem e es) h)

theorem Sound.fuseGreedy (h : g.Sound l) : (g.fuseGreedy model l).Sound l ∧
    ∀ i, (g.fuseGreedy model l).Holds i ↔ g.Holds i := by
  obtain ⟨hs, hh⟩ := fuseGreedyLoop_induction model (l := l) (g := g)
    (P := fun g' => g'.Sound l ∧ ∀ i, g'.Holds i ↔ g.Holds i) (fun g' e he hg' => by
      obtain ⟨hne, h1, h2⟩ := hg'.1.ends e he
      obtain ⟨hs, hh⟩ := hg'.1.greedyStep model hne h1 h2
      exact ⟨hs, fun i => (hh i).trans (hg'.2 i)⟩)
    g.greedyFuel ⟨h, fun i => Iff.rfl⟩
  exact ⟨hs.removeClearedVertices, fun i => (holds_removeClearedVertices hs i).trans (hh i)⟩

end GraphDW
end Bohrium
