import Bohrium.Dag.Fusers
import Mathlib.Data.List.GetD

/-! # The invariant of the two graphs

A graph is sound when its dependency graph, as a graph of blocks of instruction indices, is valid
for the dependency order of the instruction list (`Edges.BlockGraph.Valid`), and the weight graph
is a simple graph on vertices that still have instructions. Merging, removing edges, removing
cleared vertices and transitive reduction keep a graph sound. -/
namespace Bohrium
open Relation Edges Reorder
set_option autoImplicit false

/-- Instruction `i` has to run before instruction `j`. -/
def Precedes (l : List BhInstruction) (i j : ℕ) : Prop := i < j ∧ dependencyAt l i j = true

/-! ## Paths -/

theorem pathExist_iff (a b : ℕ) (E : List (ℕ × ℕ)) :
    pathExist a b E false = true ↔ TransGen (Adj E) a b := by
  simp only [pathExist, List.any_eq_true, Bool.and_eq_true, reach_iff, beq_iff_eq, Bool.not_false,
    Bool.true_or, and_true]
  constructor
  · rintro ⟨e, he, hr, rfl⟩
    exact TransGen.tail' hr he
  · intro h
    obtain ⟨x, hx, he⟩ := path_last h
    exact ⟨(x, b), he, hx, rfl⟩

theorem pathExist_long_iff (a b : ℕ) (E : List (ℕ × ℕ)) :
    pathExist a b E true = true ↔ ∃ x, x ≠ a ∧ ReflTransGen (Adj E) a x ∧ (x, b) ∈ E := by
  simp only [pathExist, List.any_eq_true, Bool.and_eq_true, reach_iff, beq_iff_eq, Bool.not_true,
    Bool.false_or, bne_iff_ne]
  constructor
  · rintro ⟨e, he, ⟨hr, rfl⟩, hne⟩
    exact ⟨e.1, hne, hr, he⟩
  · rintro ⟨x, hne, hr, he⟩
    exact ⟨(x, b), he, ⟨hr, rfl⟩, hne⟩

/-- Without a long path, no third vertex lies between the two. -/
theorem not_between_of_not_long {a b : ℕ} {E : List (ℕ × ℕ)} (hac : Acyclic (Adj E))
    (h : pathExist a b E true = false) {x : ℕ} (hax : TransGen (Adj E) a x) :
    ¬ TransGen (Adj E) x b := by
  intro hxb
  have hlong : pathExist a b E true = true := by
    obtain ⟨y, hxy, hyb⟩ := path_last hxb
    refine (pathExist_long_iff a b E).mpr ⟨y, ?_, hax.to_reflTransGen.trans hxy, hyb⟩
    rintro rfl
    exact hac y (hax.trans_left hxy)
  rw [hlong] at h
  cases h

namespace GraphDW

/-! ## Kernels of a changed graph -/

theorem kernel_of_set (g : GraphDW) {a v : ℕ} (k : BhIrKernel) (ha : a < g.numVertices) :
    (g.kernels.set a k).getD v {} = if v = a then k else g.kernel v := by
  unfold kernel
  rw [List.getD_eq_getElem?_getD, List.getD_eq_getElem?_getD, List.getElem?_set]
  have ha' : a < g.kernels.length := ha
  by_cases h : v = a
  · subst h
    simp [ha']
  · simp [h, Ne.symm h]

theorem kernel_of_ge (g : GraphDW) {v : ℕ} (h : g.numVertices ≤ v) : g.kernel v = {} :=
  by rw [kernel, List.getD_eq_getElem?_getD, List.getElem?_eq_none h, Option.getD_none]

/-- The dependency graph as a graph of blocks of instruction indices. -/
def blocks (g : GraphDW) : BlockGraph ℕ ℕ := ⟨fun v => (g.kernel v).instrIndexes, Adj g.edgesD⟩

/-- The vertex still has instructions. -/
def Live (g : GraphDW) (v : ℕ) : Prop := (g.kernel v).instrIndexes ≠ []

theorem Live.lt {g : GraphDW} {v : ℕ} (h : g.Live v) : v < g.numVertices := by
  by_contra hge
  exact h (by rw [g.kernel_of_ge (Nat.le_of_not_lt hge)])

theorem mem_live {g : GraphDW} {v : ℕ} : v ∈ g.live ↔ g.Live v := by
  unfold live
  rw [List.mem_filter, List.mem_range, decide_eq_true_eq]
  exact ⟨And.right, fun h => ⟨Live.lt h, h⟩⟩

theorem nodup_live (g : GraphDW) : g.live.Nodup := List.nodup_range.filter _

structure Sound (l : List BhInstruction) (g : GraphDW) : Prop where
  valid : g.blocks.Valid (Precedes l)
  bounded : ∀ v i, i ∈ (g.kernel v).instrIndexes → i < l.length
  ends : ∀ e ∈ g.edgesW, e.source ≠ e.target ∧ g.Live e.source ∧ g.Live e.target
  simple : g.edgesW.Pairwise fun e f => f.joins e.source e.target = false

variable {l : List BhInstruction} {g : GraphDW}

/-- Edges join vertices with instructions. -/
theorem Sound.live_of_edge (h : g.Sound l) {u v : ℕ} (he : (u, v) ∈ g.edgesD) :
    g.Live u ∧ g.Live v := by
  obtain ⟨i, hi, j, hj, _⟩ := h.valid.backed u v he
  exact ⟨List.ne_nil_of_mem hi, List.ne_nil_of_mem hj⟩

theorem Sound.inRange (h : g.Sound l) : InRange g.numVertices g.edgesD := by
  intro e he
  obtain ⟨hu, hv⟩ := h.live_of_edge (u := e.1) (v := e.2) he
  exact ⟨hu.lt, hv.lt⟩

theorem Sound.edge_ne (h : g.Sound l) {u v : ℕ} (he : (u, v) ∈ g.edgesD) : u ≠ v := by
  rintro rfl
  exact h.valid.acyclic u (TransGen.single he)

/-! ## Weight edges -/

theorem joins_comm (e : EdgeW) (u v : ℕ) : e.joins u v = e.joins v u := by
  unfold EdgeW.joins
  rw [Bool.or_comm]

theorem joins_iff {e : EdgeW} {u v : ℕ} :
    e.joins u v = true ↔ (e.source = u ∧ e.target = v) ∨ (e.source = v ∧ e.target = u) := by
  simp [EdgeW.joins]

theorem joins_self (e : EdgeW) : e.joins e.source e.target = true := joins_iff.mpr (Or.inl ⟨rfl, rfl⟩)

theorem mem_addEdgeW {u v : ℕ} {w : ℤ} {E : List EdgeW} {e : EdgeW} (h : e ∈ addEdgeW u v w E) :
    e ∈ E ∨ (e = ⟨u, v, w⟩ ∧ ∀ f ∈ E, f.joins u v = false) := by
  unfold addEdgeW at h
  split_ifs at h with hj
  · exact Or.inl h
  · rcases List.mem_append.mp h with h | h
    · exact Or.inl h
    · exact Or.inr ⟨List.mem_singleton.mp h, by simpa using hj⟩

theorem subset_addEdgeW {u v : ℕ} {w : ℤ} {E : List EdgeW} {e : EdgeW} (h : e ∈ E) :
    e ∈ addEdgeW u v w E := by
  unfold addEdgeW
  split_ifs
  · exact h
  · exact List.mem_append_left _ h

theorem joined_addEdgeW (u v : ℕ) (w : ℤ) (E : List EdgeW) : Joined (addEdgeW u v w E) u v := by
  unfold addEdgeW
  split_ifs with hj
  · obtain ⟨e, he, hj⟩ := List.any_eq_true.mp hj
    exact ⟨e, he, hj⟩
  · exact ⟨⟨u, v, w⟩, List.mem_append_right _ (List.mem_singleton_self _), joins_self _⟩

/-- Edges from `a` added to a list of vertices. -/
theorem mem_foldl_addEdgeW {a : ℕ} {vs : List ℕ} {E : List EdgeW} {e : EdgeW}
    (h : e ∈ vs.foldl (fun E v => addEdgeW a v 0 E) E) : e ∈ E ∨ ∃ v ∈ vs, e = ⟨a, v, 0⟩ := by
  induction vs generalizing E with
  | nil => exact Or.inl h
  | cons v vs ih =>
    rcases ih h with h | ⟨w, hw, rfl⟩
    · rcases mem_addEdgeW h with h | ⟨rfl, _⟩
      · exact Or.inl h
      · exact Or.inr ⟨v, List.mem_cons_self, rfl⟩
    · exact Or.inr ⟨w, List.mem_cons_of_mem v hw, rfl⟩

theorem subset_foldl_addEdgeW {a : ℕ} (vs : List ℕ) {E : List EdgeW} {e : EdgeW} (h : e ∈ E) :
    e ∈ vs.foldl (fun E v => addEdgeW a v 0 E) E := by
  induction vs generalizing E with
  | nil => exact h
  | cons v vs ih => exact ih (subset_addEdgeW h)

theorem joined_foldl_addEdgeW {a : ℕ} {vs : List ℕ} {E : List EdgeW} {v : ℕ} (hv : v ∈ vs) :
    Joined (vs.foldl (fun E v => addEdgeW a v 0 E) E) a v := by
  induction vs generalizing E with
  | nil => cases hv
  | cons w vs ih =>
    rcases List.mem_cons.mp hv with rfl | hv
    · obtain ⟨e, he, hj⟩ := joined_addEdgeW a v 0 E
      exact ⟨e, subset_foldl_addEdgeW vs he, hj⟩
    · exact ih hv

theorem simple_addEdgeW {u v : ℕ} {w : ℤ} {E : List EdgeW}
    (h : E.Pairwise fun e f => f.joins e.source e.target = false) :
    (addEdgeW u v w E).Pairwise fun e f => f.joins e.source e.target = false := by
  unfold addEdgeW
  split_ifs with hj
  · exact h
  · rw [List.pairwise_append]
    refine ⟨h, List.pairwise_singleton _ _, fun e he f hf => ?_⟩
    rw [List.mem_singleton.mp hf]
    by_contra hjoin
    refine hj (List.any_eq_true.mpr ⟨e, he, ?_⟩)
    rw [Bool.not_eq_false, joins_iff] at hjoin
    rw [joins_iff]
    simp only at hjoin
    omega

theorem simple_foldl_addEdgeW {a : ℕ} (vs : List ℕ) {E : List EdgeW}
    (h : E.Pairwise fun e f => f.joins e.source e.target = false) :
    (vs.foldl (fun E v => addEdgeW a v 0 E) E).Pairwise fun e f => f.joins e.source e.target = false := by
  induction vs generalizing E with
  | nil => exact h
  | cons v vs ih => exact ih (simple_addEdgeW h)

theorem mem_foldl_setInsert {α β : Type} [DecidableEq β] (f : α → β) (xs : List α) (E : List β) {e : β} :
    e ∈ xs.foldl (fun E x => setInsert (f x) E) E ↔ e ∈ E ∨ ∃ x ∈ xs, e = f x := by
  induction xs generalizing E with
  | nil => simp
  | cons x xs ih =>
    rw [List.foldl_cons, ih, mem_setInsert]
    constructor
    · rintro ((h | h) | ⟨y, hy, h⟩)
      · exact Or.inr ⟨x, List.mem_cons_self, h⟩
      · exact Or.inl h
      · exact Or.inr ⟨y, List.mem_cons_of_mem x hy, h⟩
    · rintro (h | ⟨y, hy, h⟩)
      · exact Or.inl (Or.inr h)
      · rcases List.mem_cons.mp hy with rfl | hy
        · exact Or.inl (Or.inl h)
        · exact Or.inr ⟨y, hy, h⟩

/-! ## Merging two vertices -/

section Merge
variable (model : FuseModel) {a b : ℕ} (aBeforeB : Bool)

theorem numVertices_mergeVertices :
    (g.mergeVertices model l a b aBeforeB).numVertices = g.numVertices := by
  unfold mergeVertices reweigh clearVertex moveEdges mergeKernels numVertices
  cases aBeforeB <;> simp

theorem edges_mergeKernels (g : GraphDW) (a b : ℕ) :
    (g.mergeKernels l a b aBeforeB).edgesW = g.edgesW ∧
      (g.mergeKernels l a b aBeforeB).edgesD = g.edgesD ∧
      (g.mergeKernels l a b aBeforeB).numVertices = g.numVertices := by
  unfold mergeKernels numVertices
  cases aBeforeB <;> simp

/-- The kernels after a merge, all but the cleared one. -/
theorem kernel_mergeVertices_of_ne (ha : a < g.numVertices) (hb : b < g.numVertices) {v : ℕ} (hvb : v ≠ b) :
    (g.mergeVertices model l a b aBeforeB).kernel v = if v = a then
      (if aBeforeB then (g.kernel b).instrIndexes.foldl (BhIrKernel.addInstr l) (g.kernel a)
      else (g.kernel a).instrIndexes.foldl (BhIrKernel.addInstr l) (g.kernel b)) else g.kernel v := by
  have hb' : b < (g.mergeKernels l a b aBeforeB).numVertices := by
    rw [(edges_mergeKernels aBeforeB g a b).2.2]
    exact hb
  refine ((kernel_of_set (g.mergeKernels l a b aBeforeB) _ hb').trans (if_neg hvb)).trans ?_
  unfold mergeKernels
  cases aBeforeB with
  | true => exact kernel_of_set g _ ha
  | false =>
    let k := (g.kernel a).instrIndexes.foldl (BhIrKernel.addInstr l) (g.kernel b)
    have ha' : a < ({ g with kernels := g.kernels.set b k } : GraphDW).numVertices := by
      simpa [numVertices] using ha
    refine (kernel_of_set { g with kernels := g.kernels.set b k } k ha').trans ?_
    by_cases hva : v = a
    · rw [if_pos hva, if_pos hva]
      rfl
    · rw [if_neg hva, if_neg hva]
      exact (kernel_of_set g k hb).trans (if_neg hvb)

theorem kernel_mergeVertices (ha : a < g.numVertices) (hb : b < g.numVertices) (v : ℕ) :
    (v ≠ a → v ≠ b → (g.mergeVertices model l a b aBeforeB).kernel v = g.kernel v) ∧
      (a ≠ b → ((g.mergeVertices model l a b aBeforeB).kernel a).instrIndexes =
        if aBeforeB then (g.kernel a).instrIndexes ++ (g.kernel b).instrIndexes
        else (g.kernel b).instrIndexes ++ (g.kernel a).instrIndexes) ∧
      ((g.mergeVertices model l a b aBeforeB).kernel b).instrIndexes = [] := by
  have hb' : b < (g.mergeKernels l a b aBeforeB).numVertices := by
    rw [(edges_mergeKernels aBeforeB g a b).2.2]
    exact hb
  refine ⟨fun hva hvb => ?_, fun hab => ?_, ?_⟩
  · rw [kernel_mergeVertices_of_ne model aBeforeB ha hb hvb, if_neg hva]
  · rw [kernel_mergeVertices_of_ne model aBeforeB ha hb hab, if_pos rfl]
    cases aBeforeB with
    | true => exact BhIrKernel.instrIndexes_foldl_addInstr l _ _
    | false => exact BhIrKernel.instrIndexes_foldl_addInstr l _ _
  · have hclear : (g.mergeVertices model l a b aBeforeB).kernel b =
        ((g.mergeKernels l a b aBeforeB).kernel b).clear :=
      (kernel_of_set (g.mergeKernels l a b aBeforeB) _ hb').trans (if_pos rfl)
    rw [hclear]
    rfl

/-- The edges of `b` moved to `a` and the rest of them dropped: the contracted graph. -/
theorem contracted_iff {n a b : ℕ} {E : List (ℕ × ℕ)} (hin : InRange n E)
    (hloop : ∀ u v, (u, v) ∈ E → u ≠ v) (hab : a ≠ b) (u v : ℕ) :
    (((u, v) ∈ E ∨ (∃ w, (w < n ∧ (b, w) ∈ E ∧ w ≠ a) ∧ u = a ∧ v = w) ∨
        ∃ w, (w < n ∧ (w, b) ∈ E ∧ w ≠ a) ∧ u = w ∧ v = a) ∧ u ≠ b ∧ v ≠ b) ↔
      Image (contract a b) (Adj E) u v := by
  constructor
  · rintro ⟨h | ⟨w, ⟨_, hw, hwa⟩, rfl, rfl⟩ | ⟨w, ⟨_, hw, hwa⟩, rfl, rfl⟩, hub, hvb⟩
    · exact ⟨hloop u v h, u, v, h, if_neg hub, if_neg hvb⟩
    · exact ⟨Ne.symm hwa, b, v, hw, if_pos rfl, if_neg hvb⟩
    · exact ⟨hwa, u, b, hw, if_neg hub, if_pos rfl⟩
  · rintro ⟨hne, x, y, hxy, rfl, rfl⟩
    obtain ⟨hx, hy⟩ := hin _ hxy
    by_cases hxb : x = b
    · subst hxb
      have hyx : y ≠ x := fun e => hloop x y hxy e.symm
      have hcx : contract a x x = a := if_pos rfl
      have hcy : contract a x y = y := if_neg hyx
      rw [hcx, hcy] at hne ⊢
      exact ⟨Or.inr (Or.inl ⟨y, ⟨hy, hxy, Ne.symm hne⟩, rfl, rfl⟩), hab, hyx⟩
    · have hcx : contract a b x = x := if_neg hxb
      by_cases hyb : y = b
      · subst hyb
        have hcy : contract a y y = a := if_pos rfl
        rw [hcx, hcy] at hne ⊢
        exact ⟨Or.inr (Or.inr ⟨x, ⟨hx, hxy, hne⟩, rfl, rfl⟩), hxb, hab⟩
      · have hcy : contract a b y = y := if_neg hyb
        rw [hcx, hcy]
        exact ⟨Or.inl hxy, hxb, hyb⟩

/-- The dependency edges after a merge are those of the contracted graph. -/
theorem mem_edgesD_mergeVertices (hin : InRange g.numVertices g.edgesD)
    (hloop : ∀ u v, (u, v) ∈ g.edgesD → u ≠ v) (hab : a ≠ b) (u v : ℕ) :
    (u, v) ∈ (g.mergeVertices model l a b aBeforeB).edgesD ↔
      Image (contract a b) (Adj g.edgesD) u v := by
  obtain ⟨_, hE, hnum⟩ := edges_mergeKernels (l := l) aBeforeB g a b
  rw [← contracted_iff hin hloop hab]
  unfold mergeVertices reweigh clearVertex moveEdges
  simp only [List.mem_filter, mem_foldl_setInsert, outNeighbours, inNeighbours, hnum, hE,
    decide_eq_true_eq, List.mem_range, Prod.mk.injEq, and_assoc, or_assoc]

/-- The vertices whose weight edge to the merged vertex is computed anew. -/
def MergeNeighbour (g : GraphDW) (a b v : ℕ) : Prop :=
  Joined g.edgesW a v ∨ Joined g.edgesW b v ∨ (b, v) ∈ g.edgesD ∨ (v, b) ∈ g.edgesD

theorem reweighEdge_cases {e e' : EdgeW} (h : g.reweighEdge model l a e = some e') :
    (e.source ≠ a ∧ e.target ≠ a ∧ e' = e) ∨ ((e.source = a ∨ e.target = a) ∧
      0 ≤ (g.kernel a).mergeCostSavings model l (g.kernel (e.opposite a)) ∧
      e' = { e with value := (g.kernel a).mergeCostSavings model l (g.kernel (e.opposite a)) }) := by
  unfold reweighEdge at h
  by_cases hna : e.source ≠ a ∧ e.target ≠ a
  · rw [if_pos hna] at h
    exact Or.inl ⟨hna.1, hna.2, (Option.some.inj h).symm⟩
  · rw [if_neg hna] at h
    by_cases hc : 0 ≤ (g.kernel a).mergeCostSavings model l (g.kernel (e.opposite a))
    · simp only [if_pos hc] at h
      refine Or.inr ⟨?_, hc, (Option.some.inj h).symm⟩
      by_contra hno
      exact hna (not_or.mp hno)
    · simp only [if_neg hc] at h
      cases h

theorem reweighEdge_ends {e e' : EdgeW} (h : g.reweighEdge model l a e = some e') :
    e'.source = e.source ∧ e'.target = e.target := by
  rcases reweighEdge_cases model h with ⟨_, _, rfl⟩ | ⟨_, _, rfl⟩ <;> exact ⟨rfl, rfl⟩

theorem joins_opposite {e : EdgeW} (h : e.source = a ∨ e.target = a) : e.joins a (e.opposite a) = true := by
  unfold EdgeW.opposite
  rw [joins_iff]
  split_ifs with hs
  · exact Or.inl ⟨hs, rfl⟩
  · exact Or.inr ⟨rfl, h.resolve_left hs⟩

theorem opposite_of_joins {e : EdgeW} {v : ℕ} (hva : v ≠ a) (h : e.joins a v = true) :
    (e.source = a ∨ e.target = a) ∧ e.opposite a = v := by
  unfold EdgeW.opposite
  rcases joins_iff.mp h with ⟨hs, ht⟩ | ⟨hs, ht⟩
  · exact ⟨Or.inl hs, by rw [if_pos hs, ht]⟩
  · exact ⟨Or.inr ht, by rw [if_neg (hs ▸ hva), hs]⟩

/-- A weight edge after a merge is an old one away from both vertices, or a new one at `a`. -/
theorem mem_edgesW_mergeVertices {e : EdgeW} (hends : ∀ e ∈ g.edgesW, e.source ≠ e.target)
    (h : e ∈ (g.mergeVertices model l a b aBeforeB).edgesW) :
    (e ∈ g.edgesW ∧ e.source ≠ a ∧ e.target ≠ a ∧ e.source ≠ b ∧ e.target ≠ b) ∨
    ∃ v, v ≠ a ∧ v ≠ b ∧ e.joins a v = true ∧ MergeNeighbour g a b v ∧ 0 ≤ e.value ∧
      e.value = ((g.mergeVertices model l a b aBeforeB).kernel a).mergeCostSavings model l
        ((g.mergeVertices model l a b aBeforeB).kernel v) := by
  obtain ⟨hEW, hED, _⟩ := edges_mergeKernels (l := l) aBeforeB g a b
  obtain ⟨f, hf, hfe⟩ := List.mem_filterMap.mp h
  unfold clearVertex moveEdges at hf
  simp only [List.mem_filter, decide_eq_true_eq] at hf
  obtain ⟨hf, hsb, htb⟩ := hf
  have hf' := mem_foldl_addEdgeW hf
  rw [hEW] at hf'
  have horigin : f ∈ g.edgesW ∨ ∃ v, v ≠ a ∧ f = ⟨a, v, 0⟩ ∧ MergeNeighbour g a b v := by
    rcases hf' with hf' | ⟨v, hv, rfl⟩
    · exact Or.inl hf'
    · refine Or.inr ⟨v, ?_⟩
      simp only [List.mem_append, List.mem_filter, outNeighbours, inNeighbours, neighboursW, hED, hEW,
        decide_eq_true_eq, List.any_eq_true] at hv
      rcases hv with (⟨⟨_, hv⟩, hva⟩ | ⟨⟨_, hv⟩, hva⟩) | ⟨⟨_, hv⟩, hva⟩
      · exact ⟨hva, rfl, Or.inr (Or.inr (Or.inl hv))⟩
      · exact ⟨hva, rfl, Or.inr (Or.inr (Or.inr hv))⟩
      · exact ⟨hva, rfl, Or.inr (Or.inl hv)⟩
  rcases reweighEdge_cases model hfe with ⟨hsa, hta, rfl⟩ | ⟨hfa, hcost, rfl⟩
  · rcases horigin with hold | ⟨v, _, rfl, _⟩
    · exact Or.inl ⟨hold, hsa, hta, hsb, htb⟩
    · exact absurd rfl hsa
  · have hne : f.source ≠ f.target := by
      rcases horigin with hold | ⟨v, hva, rfl, _⟩
      · exact hends f hold
      · exact Ne.symm hva
    have hoa : f.opposite a ≠ a := by
      unfold EdgeW.opposite
      split_ifs with hs
      · exact fun ht => hne (hs.trans ht.symm)
      · exact hs
    have hob : f.opposite a ≠ b := by
      unfold EdgeW.opposite
      split_ifs <;> assumption
    refine Or.inr ⟨f.opposite a, hoa, hob, joins_opposite hfa, ?_, hcost, rfl⟩
    rcases horigin with hold | ⟨v, hva, rfl, hnb⟩
    · exact Or.inl ⟨f, hold, joins_opposite hfa⟩
    · simpa [EdgeW.opposite] using hnb

/-- Weight edges away from the merged vertices stay. -/
theorem edgesW_mergeVertices_of_mem {e : EdgeW} (h : e ∈ g.edgesW) (hsa : e.source ≠ a)
    (hta : e.target ≠ a) (hsb : e.source ≠ b) (htb : e.target ≠ b) :
    e ∈ (g.mergeVertices model l a b aBeforeB).edgesW := by
  refine List.mem_filterMap.mpr ⟨e, ?_, if_pos ⟨hsa, hta⟩⟩
  refine List.mem_filter.mpr ⟨subset_foldl_addEdgeW _ ?_, by simp [hsb, htb]⟩
  rw [(edges_mergeKernels aBeforeB g a b).1]
  exact h

/-- Every neighbour that is fusible with the merged kernel gets a weight edge. -/
theorem joined_mergeVertices {v : ℕ} (hva : v ≠ a) (hvb : v ≠ b) (hab : a ≠ b)
    (hv : v < g.numVertices) (hnb : MergeNeighbour g a b v)
    (hcost : 0 ≤ ((g.mergeVertices model l a b aBeforeB).kernel a).mergeCostSavings model l
      ((g.mergeVertices model l a b aBeforeB).kernel v)) :
    Joined (g.mergeVertices model l a b aBeforeB).edgesW a v := by
  obtain ⟨hEW, hED, hnum⟩ := edges_mergeKernels (l := l) aBeforeB g a b
  have hmoved : Joined ((g.mergeKernels l a b aBeforeB).moveEdges a b).edgesW a v := by
    rcases hnb with ⟨e, he, hj⟩ | ⟨e, he, hj⟩ | hd | hd
    · exact ⟨e, subset_foldl_addEdgeW _ (hEW ▸ he), hj⟩
    · refine joined_foldl_addEdgeW (List.mem_append_right _ ?_)
      simp only [neighboursW, List.mem_filter, List.mem_range, hEW, hnum, decide_eq_true_eq,
        List.any_eq_true]
      exact ⟨⟨hv, e, he, hj⟩, hva⟩
    · refine joined_foldl_addEdgeW (List.mem_append_left _ (List.mem_append_left _ ?_))
      simp only [outNeighbours, List.mem_filter, List.mem_range, hED, hnum, decide_eq_true_eq]
      exact ⟨⟨hv, hd⟩, hva⟩
    · refine joined_foldl_addEdgeW (List.mem_append_left _ (List.mem_append_right _ ?_))
      simp only [inNeighbours, List.mem_filter, List.mem_range, hED, hnum, decide_eq_true_eq]
      exact ⟨⟨hv, hd⟩, hva⟩
  obtain ⟨e, he, hj⟩ := hmoved
  have hclear : e ∈ (((g.mergeKernels l a b aBeforeB).moveEdges a b).clearVertex b).edgesW := by
    refine List.mem_filter.mpr ⟨he, ?_⟩
    rcases joins_iff.mp hj with ⟨hs, ht⟩ | ⟨hs, ht⟩ <;> simp [hs, ht, hab, hvb]
  obtain ⟨hends, hopp⟩ := opposite_of_joins hva hj
  rw [← hopp] at hcost
  have hna : ¬ (e.source ≠ a ∧ e.target ≠ a) := fun h => hends.elim h.1 h.2
  exact ⟨_, List.mem_filterMap.mpr ⟨e, hclear, (if_neg hna).trans (if_pos hcost)⟩, hj⟩

theorem simple_mergeVertices (h : g.edgesW.Pairwise fun e f => f.joins e.source e.target = false) :
    (g.mergeVertices model l a b aBeforeB).edgesW.Pairwise
      fun e f => f.joins e.source e.target = false := by
  have hmoved : (((g.mergeKernels l a b aBeforeB).moveEdges a b).clearVertex b).edgesW.Pairwise
      fun e f => f.joins e.source e.target = false := by
    refine List.Pairwise.filter _ (simple_foldl_addEdgeW _ ?_)
    rw [(edges_mergeKernels aBeforeB g a b).1]
    exact h
  refine List.pairwise_filterMap.mpr (hmoved.imp ?_)
  intro e f hef e' he' f' hf'
  obtain ⟨hes, het⟩ := reweighEdge_ends model he'
  obtain ⟨hfs, hft⟩ := reweighEdge_ends model hf'
  simpa only [EdgeW.joins, hes, het, hfs, hft] using hef

end Merge

/-! ## What keeps a graph sound -/

/-- The instruction is in some kernel. -/
def Holds (g : GraphDW) (i : ℕ) : Prop := ∃ v, i ∈ (g.kernel v).instrIndexes

section Keep
variable (model : FuseModel) {a b : ℕ} (aBeforeB : Bool)

theorem holds_mergeVertices (ha : a < g.numVertices) (hb : b < g.numVertices) (hab : a ≠ b) (i : ℕ) :
    (g.mergeVertices model l a b aBeforeB).Holds i ↔ g.Holds i := by
  obtain ⟨_, hka, hkb⟩ := kernel_mergeVertices (l := l) model aBeforeB ha hb a
  have hother := fun v => (kernel_mergeVertices (l := l) model aBeforeB ha hb v).1
  have hmem : i ∈ ((g.mergeVertices model l a b aBeforeB).kernel a).instrIndexes ↔
      i ∈ (g.kernel a).instrIndexes ∨ i ∈ (g.kernel b).instrIndexes := by
    rw [hka hab]
    split_ifs
    · exact List.mem_append
    · rw [List.mem_append, or_comm]
  constructor
  · rintro ⟨v, hv⟩
    by_cases hva : v = a
    · exact (hmem.mp (hva ▸ hv)).elim (fun h => ⟨a, h⟩) fun h => ⟨b, h⟩
    · by_cases hvb : v = b
      · rw [hvb, hkb] at hv
        cases hv
      · exact ⟨v, hother v hva hvb ▸ hv⟩
  · rintro ⟨v, hv⟩
    by_cases hva : v = a
    · exact ⟨a, hmem.mpr (Or.inl (hva ▸ hv))⟩
    · by_cases hvb : v = b
      · exact ⟨a, hmem.mpr (Or.inr (hvb ▸ hv))⟩
      · exact ⟨v, (hother v hva hvb).symm ▸ hv⟩

theorem live_mergeVertices (ha : g.Live a) (hb : b < g.numVertices) (hab : a ≠ b) {v : ℕ}
    (hvb : v ≠ b) (hv : g.Live v) : (g.mergeVertices model l a b aBeforeB).Live v := by
  obtain ⟨hother, hka, _⟩ := kernel_mergeVertices (l := l) model aBeforeB ha.lt hb v
  unfold Live
  by_cases hva : v = a
  · rw [hva, hka hab]
    unfold Live at ha
    split_ifs <;> simp [ha]
  · rw [hother hva hvb]
    exact hv

/-- Merging two kernels with no third one between them. -/
theorem Sound.mergeVertices (h : g.Sound l) (hab : a ≠ b) (ha : g.Live a) (hb : g.Live b)
    (hord : if aBeforeB then ¬ TransGen (Adj g.edgesD) b a else ¬ TransGen (Adj g.edgesD) a b)
    (h₁ : ∀ x, x ≠ a → x ≠ b → TransGen (Adj g.edgesD) a x → ¬ TransGen (Adj g.edgesD) x b)
    (h₂ : ∀ x, x ≠ a → x ≠ b → TransGen (Adj g.edgesD) b x → ¬ TransGen (Adj g.edgesD) x a) :
    (g.mergeVertices model l a b aBeforeB).Sound l := by
  obtain ⟨_, hka, hkb⟩ := kernel_mergeVertices (l := l) model aBeforeB ha.lt hb.lt a
  have hother := fun v => (kernel_mergeVertices (l := l) model aBeforeB ha.lt hb.lt v).1
  have hlive : ∀ v, v ≠ b → g.Live v → (g.mergeVertices model l a b aBeforeB).Live v :=
    fun v => live_mergeVertices model aBeforeB ha hb.lt hab
  refine ⟨?_, ?_, ?_, simple_mergeVertices model aBeforeB h.simple⟩
  · refine h.valid.merge hab _ (mem_edgesD_mergeVertices model aBeforeB h.inRange
      (fun u v => h.edge_ne) hab) (fun v hva hvb => ?_) hkb ?_ h₁ h₂
    · exact congrArg BhIrKernel.instrIndexes (hother v hva hvb)
    · cases aBeforeB with
      | true => exact Or.inl ⟨hka hab, hord⟩
      | false => exact Or.inr ⟨hka hab, hord⟩
  · intro v i hi
    obtain ⟨w, hw⟩ := (holds_mergeVertices model aBeforeB ha.lt hb.lt hab i).mp ⟨v, hi⟩
    exact h.bounded w i hw
  · intro e he
    rcases mem_edgesW_mergeVertices model aBeforeB (fun e he => (h.ends e he).1) he with
      ⟨hold, _, _, hsb, htb⟩ | ⟨v, hva, hvb, hj, hnb, _⟩
    · obtain ⟨hne, hs, ht⟩ := h.ends e hold
      exact ⟨hne, hlive _ hsb hs, hlive _ htb ht⟩
    · have hv : g.Live v := by
        rcases hnb with ⟨f, hf, hj⟩ | ⟨f, hf, hj⟩ | hd | hd
        · obtain ⟨_, hs, ht⟩ := h.ends f hf
          rcases joins_iff.mp hj with ⟨_, rfl⟩ | ⟨rfl, _⟩ <;> assumption
        · obtain ⟨_, hs, ht⟩ := h.ends f hf
          rcases joins_iff.mp hj with ⟨_, rfl⟩ | ⟨rfl, _⟩ <;> assumption
        · exact (h.live_of_edge hd).2
        · exact (h.live_of_edge hd).1
      rcases joins_iff.mp hj with ⟨hs, ht⟩ | ⟨hs, ht⟩
      · rw [hs, ht]
        exact ⟨Ne.symm hva, hlive a hab ha, hlive v hvb hv⟩
      · rw [hs, ht]
        exact ⟨hva, hlive v hvb hv, hlive a hab ha⟩

end Keep

/-- Edges between two vertices are removed when a longer path joins them. -/
theorem Sound.removeEdges (h : g.Sound l) {v1 v2 : ℕ}
    (hlong : pathExist v1 v2 g.edgesD true = true ∨ pathExist v2 v1 g.edgesD true = true) :
    (g.removeEdges v1 v2).Sound l := by
  have hac : Acyclic (Adj g.edgesD) := h.valid.acyclic
  have hmem : ∀ e, e ∈ (g.removeEdges v1 v2).edgesD ↔ e ∈ g.edgesD ∧ e ≠ (v1, v2) ∧ e ≠ (v2, v1) := by
    intro e
    simp [GraphDW.removeEdges]
  -- one of the two edges has a detour, the other would close a cycle
  have key : ∀ p q : ℕ, pathExist p q g.edgesD true = true → (q, p) ∉ g.edgesD ∧
      ((∀ e, e ∈ g.edgesD → e ≠ (p, q) → e ≠ (q, p) → e ∈ (g.removeEdges v1 v2).edgesD) →
        TransGen (Adj (g.removeEdges v1 v2).edgesD) p q) := by
    intro p q hpq
    obtain ⟨x, hxp, hpx, hxq⟩ := (pathExist_long_iff p q g.edgesD).mp hpq
    have hqp : (q, p) ∉ g.edgesD := fun he =>
      hac p ((path_of_refl hpx (Ne.symm hxp)).tail hxq |>.tail he)
    refine ⟨hqp, fun hkeep => ?_⟩
    have hp : TransGen (Adj (g.removeEdges v1 v2).edgesD) p x := by
      refine path_of_keeps (path_of_refl hpx (Ne.symm hxp)) fun u w hu huw hw => hkeep _ huw ?_ ?_
      · rintro ⟨⟩
        exact hac q (TransGen.tail' hw hxq)
      · rintro ⟨⟩
        exact hqp huw
    refine hp.tail (hkeep _ hxq ?_ ?_)
    · rintro ⟨⟩
      exact hxp rfl
    · exact fun he => hqp (he ▸ hxq)
  refine ⟨h.valid.remove_edges _ rfl (fun u v he => ((hmem _).mp he).1) fun u v huv => ?_,
    h.bounded, fun e he => h.ends e (List.mem_filter.mp he).1, h.simple.filter _⟩
  have hedge : ∀ p q, (p, q) ∈ g.edgesD → TransGen (Adj (g.removeEdges v1 v2).edgesD) p q := by
    intro p q he
    by_cases h12 : (p, q) = (v1, v2)
    · obtain ⟨rfl, rfl⟩ := Prod.mk.inj h12
      rcases hlong with hl | hl
      · exact (key p q hl).2 fun e he h1 h2 => (hmem e).mpr ⟨he, h1, h2⟩
      · exact absurd he (key q p hl).1
    · by_cases h21 : (p, q) = (v2, v1)
      · obtain ⟨rfl, rfl⟩ := Prod.mk.inj h21
        rcases hlong with hl | hl
        · exact absurd he (key q p hl).1
        · exact (key p q hl).2 fun e he h1 h2 => (hmem e).mpr ⟨he, h2, h1⟩
      · exact TransGen.single ((hmem _).mpr ⟨he, h12, h21⟩)
  induction huv with
  | single he => exact hedge _ _ he
  | tail _ he ih => exact ih.trans (hedge _ _ he)

theorem mem_transitiveReduction {u v : ℕ} :
    (u, v) ∈ g.transitiveReduction.edgesD ↔ Reduced (Adj g.edgesD) u v := by
  simp only [GraphDW.transitiveReduction, List.mem_filter, Bool.not_eq_true', Bool.eq_false_iff,
    ne_eq, pathExist_long_iff]
  rfl

/-- Transitive reduction keeps every path, and makes none. -/
theorem path_transitiveReduction (hac : Acyclic (Adj g.edgesD)) {u v : ℕ} :
    TransGen (Adj g.transitiveReduction.edgesD) u v ↔ TransGen (Adj g.edgesD) u v := by
  constructor
  · intro h
    exact TransGen.mono (fun u v he => (mem_transitiveReduction.mp he).1) u v h
  · intro h
    have hpath := path_reduced hac (g.edgesD.flatMap fun e => [e.1, e.2]).toFinset (fun u v he => by
      simp only [List.mem_toFinset, List.mem_flatMap]
      exact ⟨⟨(u, v), he, by simp⟩, ⟨(u, v), he, by simp⟩⟩) h
    exact TransGen.mono (fun u v he => mem_transitiveReduction.mpr he) u v hpath

theorem Sound.transitiveReduction (h : g.Sound l) : g.transitiveReduction.Sound l :=
  ⟨h.valid.remove_edges _ rfl (fun _ _ he => (mem_transitiveReduction.mp he).1) fun _ _ huv =>
      (path_transitiveReduction h.valid.acyclic).mpr huv,
    h.bounded, fun e he => h.ends e (List.mem_filter.mp he).1, h.simple.filter _⟩

theorem pathExist_long_transitiveReduction (hac : Acyclic (Adj g.edgesD)) {u v : ℕ}
    (huv : (u, v) ∉ g.transitiveReduction.edgesD) :
    pathExist u v g.transitiveReduction.edgesD true = true ↔ TransGen (Adj g.edgesD) u v := by
  rw [pathExist_long_iff, ← path_transitiveReduction hac]
  constructor
  · rintro ⟨x, _, hux, hxv⟩
    exact TransGen.tail' hux hxv
  · intro h
    obtain ⟨x, hux, hxv⟩ := path_last h
    refine ⟨x, ?_, hux, hxv⟩
    rintro rfl
    exact huv hxv

/-- Reachability stays, no remaining edge has a longer path beside it, and the weight edges that stay
are those between neighbours and between vertices that no path connects. -/
theorem transitiveReduction_exact (g : GraphDW) (hac : Acyclic (Adj g.edgesD)) :
    g.transitiveReduction.kernels = g.kernels ∧
    (∀ u v, TransGen (Adj g.transitiveReduction.edgesD) u v ↔ TransGen (Adj g.edgesD) u v) ∧
    (∀ u v, (u, v) ∈ g.transitiveReduction.edgesD → (u, v) ∈ g.edgesD ∧
      ¬ ∃ x, TransGen (Adj g.transitiveReduction.edgesD) u x ∧
        TransGen (Adj g.transitiveReduction.edgesD) x v) ∧
    ∀ e, e ∈ g.transitiveReduction.edgesW ↔ e ∈ g.edgesW ∧
      ((e.source, e.target) ∈ g.transitiveReduction.edgesD ∨
        (e.target, e.source) ∈ g.transitiveReduction.edgesD ∨
        ¬ TransGen (Adj g.edgesD) e.source e.target ∧ ¬ TransGen (Adj g.edgesD) e.target e.source) := by
  refine ⟨rfl, fun u v => path_transitiveReduction hac, fun u v huv => ?_, fun e => ?_⟩
  · obtain ⟨hedge, hno⟩ := mem_transitiveReduction.mp huv
    refine ⟨hedge, ?_⟩
    rintro ⟨x, hux, hxv⟩
    rw [path_transitiveReduction hac] at hux hxv
    obtain ⟨y, hxy, hyv⟩ := path_last hxv
    refine hno ⟨y, ?_, hux.to_reflTransGen.trans hxy, hyv⟩
    rintro rfl
    exact hac y (hux.trans_left hxy)
  · show e ∈ g.edgesW.filter _ ↔ _
    rw [List.mem_filter]
    apply and_congr_right
    intro _
    -- the edges that the loop tests are those of the graph it has reduced already
    show (decide ((e.source, e.target) ∈ g.transitiveReduction.edgesD) ||
      decide ((e.target, e.source) ∈ g.transitiveReduction.edgesD) ||
        !(pathExist e.source e.target g.transitiveReduction.edgesD true ||
          pathExist e.target e.source g.transitiveReduction.edgesD true)) = true ↔ _
    by_cases h1 : (e.source, e.target) ∈ g.transitiveReduction.edgesD
    · simp [h1]
    · by_cases h2 : (e.target, e.source) ∈ g.transitiveReduction.edgesD
      · simp [h2]
      · have p1 := pathExist_long_transitiveReduction hac h1
        have p2 := pathExist_long_transitiveReduction hac h2
        simp only [h1, h2, decide_false, Bool.false_or, Bool.not_eq_true', ← Bool.not_eq_true,
          Bool.or_eq_true, p1, p2, false_or, not_or]

/-- Three vertices in a row with the direct edge beside them. -/
theorem transitiveReduction_exact_chain :
    Acyclic (Adj [(0, 1), (1, 2), (0, 2)]) ∧
      (⟨0, 2, 5⟩ : EdgeW) ∉ (transitiveReduction ⟨[{}, {}, {}], [(0, 1), (1, 2), (0, 2)], 3,
        [⟨0, 1, 3⟩, ⟨0, 2, 5⟩], []⟩).edgesW := by
  have hac : Acyclic (Adj [(0, 1), (1, 2), (0, 2)]) := by
    intro u h
    have hedge : ∀ e ∈ [(0, 1), (1, 2), (0, 2)], e.1 < e.2 := by decide
    have hlt : ∀ {x y : ℕ}, TransGen (Adj [(0, 1), (1, 2), (0, 2)]) x y → x < y := by
      intro x y h
      induction h with
      | single h => exact hedge _ h
      | tail _ h ih => exact ih.trans (hedge _ h)
    exact lt_irrefl u (hlt h)
  refine ⟨hac, fun h => ?_⟩
  obtain ⟨_, _, _, hw⟩ := transitiveReduction_exact ⟨[{}, {}, {}], [(0, 1), (1, 2), (0, 2)], 3,
    [⟨0, 1, 3⟩, ⟨0, 2, 5⟩], []⟩ hac
  rcases ((hw _).mp h).2 with h | h | ⟨h, _⟩
  · exact absurd h (by decide)
  · exact absurd h (by decide)
  · exact h (TransGen.single (by decide : (0, 2) ∈ _))

/-! ## A part of the vertices -/

/-- The graph `g'` is the part of `g` on the vertices of `vs`, renumbered by position. -/
structure PartOf (g' g : GraphDW) (vs : List ℕ) : Prop where
  kernels : g'.kernels = vs.map g.kernel
  edgesD : ∀ u v, (u, v) ∈ g'.edgesD ↔
    ∃ x y, (x, y) ∈ g.edgesD ∧ x ∈ vs ∧ y ∈ vs ∧ vs.idxOf x = u ∧ vs.idxOf y = v
  edgesW : ∀ e ∈ g'.edgesW, ∃ f ∈ g.edgesW, f.source ∈ vs ∧ f.target ∈ vs ∧
    e = ⟨vs.idxOf f.source, vs.idxOf f.target, f.value⟩
  keptW : ∀ f ∈ g.edgesW, f.source ∈ vs → f.target ∈ vs →
    (⟨vs.idxOf f.source, vs.idxOf f.target, f.value⟩ : EdgeW) ∈ g'.edgesW

section Part
variable {g' : GraphDW} {vs : List ℕ}

theorem PartOf.kernel_eq (h : PartOf g' g vs) {w : ℕ} (hw : w < vs.length) :
    g'.kernel w = g.kernel (vs.getD w 0) := by
  unfold kernel
  rw [h.kernels, List.getD_eq_getElem?_getD, List.getElem?_map, List.getElem?_eq_getElem hw,
    List.getD_eq_getElem vs 0 hw]
  rfl

theorem PartOf.kernel_idxOf (h : PartOf g' g vs) {x : ℕ} (hx : x ∈ vs) :
    g'.kernel (vs.idxOf x) = g.kernel x := by
  have hlt := List.idxOf_lt_length_of_mem hx
  rw [h.kernel_eq hlt, List.getD_eq_getElem vs 0 hlt, List.getElem_idxOf hlt]

theorem PartOf.numVertices_eq (h : PartOf g' g vs) : g'.numVertices = vs.length := by
  rw [numVertices, h.kernels, List.length_map]

theorem idxOf_inj {x y : ℕ} (hx : x ∈ vs) (h : vs.idxOf x = vs.idxOf y) : x = y :=
  (List.idxOf_inj hx).mp h

/-- Where a vertex of the part came from; numbers past the part stand for themselves, moved out of
the way. -/
def PartOf.origin (g : GraphDW) (vs : List ℕ) (w : ℕ) : ℕ :=
  if w < vs.length then vs.getD w 0 else g.numVertices + w

/-- A convex part of a sound graph is sound. -/
theorem PartOf.sound (h : PartOf g' g vs) (hs : g.Sound l) (hnd : vs.Nodup)
    (hlt : ∀ v ∈ vs, v < g.numVertices)
    (hconvex : ∀ u ∈ vs, ∀ v ∈ vs, ∀ x, TransGen (Adj g.edgesD) u x → TransGen (Adj g.edgesD) x v →
      x ∈ vs) (hsimple : g'.edgesW.Pairwise fun e f => f.joins e.source e.target = false) :
    g'.Sound l := by
  have hin : ∀ w, w < vs.length → PartOf.origin g vs w ∈ vs := by
    intro w hw
    rw [PartOf.origin, if_pos hw, List.getD_eq_getElem vs 0 hw]
    exact List.getElem_mem hw
  have hidx : ∀ w, w < vs.length → vs.idxOf (PartOf.origin g vs w) = w := by
    intro w hw
    rw [PartOf.origin, if_pos hw, List.getD_eq_getElem vs 0 hw]
    exact hnd.idxOf_getElem w hw
  have hof : ∀ x ∈ vs, PartOf.origin g vs (vs.idxOf x) = x := by
    intro x hx
    have hxl := List.idxOf_lt_length_of_mem hx
    rw [PartOf.origin, if_pos hxl, List.getD_eq_getElem vs 0 hxl, List.getElem_idxOf hxl]
  have hout : ∀ w, ¬ w < vs.length → g.numVertices ≤ PartOf.origin g vs w := by
    intro w hw
    rw [PartOf.origin, if_neg hw]
    exact Nat.le_add_right _ _
  have hker : ∀ w, g'.kernel w = g.kernel (PartOf.origin g vs w) := by
    intro w
    by_cases hw : w < vs.length
    · rw [h.kernel_eq hw, PartOf.origin, if_pos hw]
    · rw [g'.kernel_of_ge (h.numVertices_eq ▸ Nat.le_of_not_lt hw), g.kernel_of_ge (hout w hw)]
  have hinj : Function.Injective (PartOf.origin g vs) := by
    intro w w' he
    by_cases hw : w < vs.length <;> by_cases hw' : w' < vs.length
    · rw [← hidx w hw, he, hidx w' hw']
    · exact absurd (hlt _ (hin w hw)) (by rw [he]; exact Nat.not_lt.mpr (hout w' hw'))
    · exact absurd (hlt _ (hin w' hw')) (by rw [← he]; exact Nat.not_lt.mpr (hout w hw))
    · rw [PartOf.origin, PartOf.origin, if_neg hw, if_neg hw'] at he
      exact Nat.add_left_cancel he
  have hlow : ∀ w x, PartOf.origin g vs w = x → x < g.numVertices → w < vs.length := by
    intro w x he hx
    by_contra hw
    exact absurd (hout w hw) (by omega)
  refine ⟨hs.valid.restrict (PartOf.origin g vs) hinj _
    (fun w => congrArg BhIrKernel.instrIndexes (hker w)) ?_ ?_, ?_, ?_, hsimple⟩
  · intro u v
    constructor
    · intro he
      obtain ⟨x, y, hxy, hx, hy, rfl, rfl⟩ := (h.edgesD u v).mp he
      rw [hof x hx, hof y hy]
      exact hxy
    · intro he
      obtain ⟨hu, hv⟩ := hs.inRange _ he
      have hu' := hlow u _ rfl hu
      have hv' := hlow v _ rfl hv
      exact (h.edgesD u v).mpr ⟨_, _, he, hin u hu', hin v hv', hidx u hu', hidx v hv'⟩
  · intro u v x hux hxv
    obtain ⟨y, hy, _⟩ := path_first hux
    obtain ⟨z, _, hz⟩ := path_last hxv
    have hu := hin u (hlow u _ rfl (hs.inRange _ hy).1)
    have hv := hin v (hlow v _ rfl (hs.inRange _ hz).2)
    have hx := hconvex _ hu _ hv x hux hxv
    exact ⟨vs.idxOf x, hof x hx⟩
  · intro v i hi
    rw [hker] at hi
    exact hs.bounded _ i hi
  · intro e he
    obtain ⟨f, hf, hsrc, htgt, rfl⟩ := h.edgesW e he
    obtain ⟨hne, hls, hlt'⟩ := hs.ends f hf
    refine ⟨fun heq => hne (idxOf_inj hsrc heq), ?_, ?_⟩
    · unfold Live
      rw [h.kernel_idxOf hsrc]
      exact hls
    · unfold Live
      rw [h.kernel_idxOf htgt]
      exact hlt'

theorem PartOf.holds (h : PartOf g' g vs) (i : ℕ) :
    g'.Holds i ↔ ∃ v ∈ vs, i ∈ (g.kernel v).instrIndexes := by
  constructor
  · rintro ⟨w, hw⟩
    have hlt : w < vs.length := by
      rw [← h.numVertices_eq]
      exact Live.lt (List.ne_nil_of_mem hw)
    rw [h.kernel_eq hlt, List.getD_eq_getElem vs 0 hlt] at hw
    exact ⟨_, List.getElem_mem hlt, hw⟩
  · rintro ⟨v, hv, hi⟩
    exact ⟨vs.idxOf v, h.kernel_idxOf hv ▸ hi⟩

/-- Renumbering keeps the weight graph simple. -/
theorem simple_map_idxOf {E : List EdgeW} (h : E.Pairwise fun e f => f.joins e.source e.target = false)
    (hE : ∀ e ∈ E, e.source ∈ vs ∧ e.target ∈ vs) :
    (E.map fun e => (⟨vs.idxOf e.source, vs.idxOf e.target, e.value⟩ : EdgeW)).Pairwise
      fun e f => f.joins e.source e.target = false := by
  rw [List.pairwise_map]
  refine h.imp_of_mem fun {e f} he hf hef => ?_
  rw [Bool.eq_false_iff, Ne, joins_iff] at hef ⊢
  obtain ⟨hfs, hft⟩ := hE f hf
  rintro (⟨h1, h2⟩ | ⟨h1, h2⟩)
  · exact hef (Or.inl ⟨idxOf_inj hfs h1, idxOf_inj hft h2⟩)
  · exact hef (Or.inr ⟨idxOf_inj hfs h1, idxOf_inj hft h2⟩)

end Part

theorem partOf_removeClearedVertices (h : g.Sound l) : PartOf g.removeClearedVertices g g.live where
  kernels := rfl
  edgesD := by
    intro u v
    simp only [removeClearedVertices, List.mem_map, Prod.mk.injEq, Prod.exists]
    constructor
    · rintro ⟨x, y, hxy, rfl, rfl⟩
      obtain ⟨hx, hy⟩ := h.live_of_edge hxy
      exact ⟨x, y, hxy, mem_live.mpr hx, mem_live.mpr hy, rfl, rfl⟩
    · rintro ⟨x, y, hxy, _, _, rfl, rfl⟩
      exact ⟨x, y, hxy, rfl, rfl⟩
  edgesW := by
    intro e he
    obtain ⟨f, hf, rfl⟩ := List.mem_map.mp he
    obtain ⟨_, hs, ht⟩ := h.ends f hf
    exact ⟨f, hf, mem_live.mpr hs, mem_live.mpr ht, rfl⟩
  keptW := fun f hf _ _ => List.mem_map.mpr ⟨f, hf, rfl⟩

theorem Sound.removeClearedVertices (h : g.Sound l) : g.removeClearedVertices.Sound l := by
  refine (partOf_removeClearedVertices h).sound h g.nodup_live (fun v hv => (mem_live.mp hv).lt) ?_ ?_
  · intro u _ v _ x hux _
    obtain ⟨y, _, hyx⟩ := path_last hux
    exact mem_live.mpr (h.live_of_edge hyx).2
  · refine simple_map_idxOf h.simple fun e he => ?_
    obtain ⟨_, hs, ht⟩ := h.ends e he
    exact ⟨mem_live.mpr hs, mem_live.mpr ht⟩

theorem holds_removeClearedVertices (h : g.Sound l) (i : ℕ) :
    g.removeClearedVertices.Holds i ↔ g.Holds i := by
  rw [(partOf_removeClearedVertices h).holds]
  constructor
  · rintro ⟨v, _, hi⟩
    exact ⟨v, hi⟩
  · rintro ⟨v, hi⟩
    exact ⟨v, mem_live.mpr (List.ne_nil_of_mem hi), hi⟩

end GraphDW
end Bohrium
