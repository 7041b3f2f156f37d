import Bohrium.Dag.Build
import Bohrium.Dag.Splitting

/-! # The weight graph follows the dependency graph

`dag_validate` asks for a weight edge beside every dependency edge between fusible kernels, with
the savings of merging its ends as weight. `add_vertex` and `merge_vertices` compute that weight
with the kernels in another order than `dag_validate`, so this holds where `check_fusible` does not
depend on the order of its arguments. -/
namespace Bohrium
open Relation Edges
set_option autoImplicit false

/-- `check_fusible` gives the same answer in both orders on the instructions of a list. -/
def FusibleSymm (model : FuseModel) (l : List BhInstruction) : Prop :=
  ∀ a ∈ l, ∀ b ∈ l, checkFusible model a b = checkFusible model b a

section
variable {model : FuseModel} {l : List BhInstruction}

theorem instrAt_mem {i : ℕ} (hi : i < l.length) : instrAt l i ∈ l := by
  rw [instrAt, List.getD_eq_getElem l _ hi]
  exact List.getElem_mem hi

theorem fusibleKernel_iff {k other : BhIrKernel} : k.fusibleKernel model l other = true ↔
    ∀ i ∈ k.instrIndexes, ∀ j ∈ other.instrIndexes,
      checkFusible model (instrAt l i) (instrAt l j) = true := by
  simp only [BhIrKernel.fusibleKernel, List.all_eq_true]

theorem fusibleKernel_comm (hsym : FusibleSymm model l) {k other : BhIrKernel}
    (hk : ∀ i ∈ k.instrIndexes, i < l.length) (ho : ∀ i ∈ other.instrIndexes, i < l.length) :
    k.fusibleKernel model l other = other.fusibleKernel model l k := by
  rw [Bool.eq_iff_iff, fusibleKernel_iff, fusibleKernel_iff]
  constructor
  · intro h j hj i hi
    rw [hsym _ (instrAt_mem (ho j hj)) _ (instrAt_mem (hk i hi))]
    exact h i hi j hj
  · intro h i hi j hj
    rw [hsym _ (instrAt_mem (hk i hi)) _ (instrAt_mem (ho j hj))]
    exact h j hj i hi

theorem mergeCostSavings_nonneg_iff {k other : BhIrKernel} :
    0 ≤ k.mergeCostSavings model l other ↔ k.fusibleKernel model l other = true := by
  unfold BhIrKernel.mergeCostSavings
  cases k.fusibleKernel model l other with
  | false => simp
  | true =>
    simp only [Bool.not_true, Bool.false_eq_true, if_false, iff_true]
    split_ifs <;> exact Int.natCast_nonneg _

theorem mergeCostSavings_eq_neg_one_or (model : FuseModel) (l : List BhInstruction) (k other : BhIrKernel) :
    k.mergeCostSavings model l other = -1 ∨ 0 ≤ k.mergeCostSavings model l other := by
  rw [mergeCostSavings_nonneg_iff]
  unfold BhIrKernel.mergeCostSavings
  cases k.fusibleKernel model l other <;> simp

end

namespace GraphDW

/-- The conditions of `dag_validate` that `Sound` does not have. -/
structure Weighed (model : FuseModel) (l : List BhInstruction) (g : GraphDW) : Prop where
  numW : g.numW = g.numVertices
  value : ∀ e ∈ g.edgesW, ∀ u v, (u, v) ∈ g.edgesD → e.joins u v = true →
    e.value = (g.kernel u).mergeCostSavings model l (g.kernel v)
  covered : ∀ u v, (u, v) ∈ g.edgesD → 0 ≤ (g.kernel u).mergeCostSavings model l (g.kernel v) →
    Joined g.edgesW u v

section
variable {model : FuseModel} {l : List BhInstruction} {g : GraphDW}

/-- The order of the kernels along an edge decides `dependency`. -/
theorem Sound.dependency_of_edge (hs : g.Sound l) {u v : ℕ} (he : (u, v) ∈ g.edgesD) :
    (g.kernel v).dependency l (g.kernel u) = 1 ∧ (g.kernel u).dependency l (g.kernel v) ≠ 1 := by
  have hpath : TransGen (Adj g.edgesD) u v := TransGen.single he
  refine ⟨?_, hs.dependency_of_path hpath⟩
  obtain ⟨i, hi, j, hj, hij⟩ := hs.valid.backed u v he
  rcases BhIrKernel.dependency_cases l (g.kernel v) (g.kernel u) with
    ⟨_, hno⟩ | ⟨h1, _⟩ | ⟨_, i', hi', j', hj', hij', hdep⟩
  · have hdep := hij.2
    rw [hno i hi j hj] at hdep
    cases hdep
  · exact h1
  · have hback := hs.valid.path v u i' j' (hs.edge_ne he).symm hi' hj' ⟨hij', hdep⟩
    exact absurd (hpath.trans hback) (hs.valid.acyclic u)

theorem Sound.mergeCostSavings_comm (hs : g.Sound l) (hsym : FusibleSymm model l) {u v : ℕ}
    (he : (u, v) ∈ g.edgesD) : (g.kernel u).mergeCostSavings model l (g.kernel v) =
      (g.kernel v).mergeCostSavings model l (g.kernel u) := by
  obtain ⟨h1, h2⟩ := hs.dependency_of_edge he
  unfold BhIrKernel.mergeCostSavings
  rw [fusibleKernel_comm hsym (hs.bounded u) (hs.bounded v), if_neg h2, if_pos h1]

/-- A sound and weighed graph passes `dag_validate`. -/
theorem Weighed.dagValidate (boost : Boost) (hs : g.Sound l) (hw : Weighed model l g) :
    dagValidate model l boost g = true := by
  obtain ⟨order, hsort, _⟩ := boost.topologicalSort_acyclic _ _ hs.inRange hs.valid.acyclic
  unfold Bohrium.dagValidate
  simp only [Bool.and_eq_true, decide_eq_true_eq, List.all_eq_true, List.mem_range, Bool.or_eq_true,
    beq_iff_eq, bne_iff_ne, pathExist_iff]
  refine ⟨⟨⟨⟨hw.numW.symm, ?_⟩, by rw [hsort]; rfl⟩, ?_⟩, ?_⟩
  · refine List.nodup_flatMap.mpr ⟨fun v _ => hs.valid.nodup v, List.nodup_range.imp ?_⟩
    intro u v huv i hu hv
    exact huv (hs.valid.disjoint u v i hu hv)
  · intro v1 _ v2 _
    by_cases hne : v1 = v2
    · exact Or.inl (Or.inl hne)
    · rcases BhIrKernel.dependency_cases l (g.kernel v1) (g.kernel v2) with
        ⟨h0, _⟩ | ⟨_, i, hi, j, hj, hij, hdep⟩ | ⟨h0, _⟩
      · exact Or.inl (Or.inr (by omega))
      · have hlt : i < j := by
          refine Nat.lt_of_le_of_ne hij ?_
          rintro rfl
          exact hne (hs.valid.disjoint v1 v2 i hj hi)
        exact Or.inr (hs.valid.path v2 v1 i j (Ne.symm hne) hi hj ⟨hlt, hdep⟩)
      · exact Or.inl (Or.inr (by omega))
  · intro e he
    rcases mergeCostSavings_eq_neg_one_or model l (g.kernel e.1) (g.kernel e.2) with h | h
    · exact Or.inl h
    · obtain ⟨f, hf, hj⟩ := hw.covered e.1 e.2 he h
      refine Or.inr ?_
      cases hfind : findEdgeW e.1 e.2 g.edgesW with
      | none => exact absurd hj (by simpa using List.find?_eq_none.mp hfind f hf)
      | some f' =>
        have hf' := List.mem_of_find?_eq_some hfind
        have hj' : f'.joins e.1 e.2 = true := List.find?_some (p := fun f : EdgeW => f.joins e.1 e.2) hfind
        simp only [Option.any_some, beq_iff_eq]
        exact hw.value f' hf' e.1 e.2 he hj'

/-! ## Building -/

theorem Extends.weighed {k : BhIrKernel} {h : GraphDW} (hsym : FusibleSymm model l) (hs : g.Sound l)
    (hx : Extends model l g k h) (hs' : h.Sound l) (hw : Weighed model l g) : Weighed model l h := by
  have hnum : h.numVertices = g.numVertices + 1 := by
    change h.kernels.length = g.kernels.length + 1
    rw [hx.kernels, List.length_append, List.length_singleton]
  -- an edge of the new graph is an old one between old vertices, or it enters the new vertex
  have hedge : ∀ u v, (u, v) ∈ h.edgesD →
      ((u, v) ∈ g.edgesD ∧ u < g.numVertices ∧ v < g.numVertices) ∨
        (v = g.numVertices ∧ u < g.numVertices) := by
    intro u v he
    rcases hx.newD _ he with he | ⟨w, hw, heq, _⟩
    · exact Or.inl ⟨he, (hs.inRange _ he).1, (hs.inRange _ he).2⟩
    · obtain ⟨rfl, rfl⟩ := Prod.mk.inj heq
      exact Or.inr ⟨rfl, hw⟩
  have hold : ∀ e ∈ g.edgesW, e.source < g.numVertices ∧ e.target < g.numVertices := by
    intro e he
    obtain ⟨_, h1, h2⟩ := hs.ends e he
    exact ⟨h1.lt, h2.lt⟩
  refine ⟨by rw [hx.numW, hw.numW, hnum], ?_, ?_⟩
  · intro e he u v huv hj
    rcases hedge u v huv with ⟨huv', hu, hv⟩ | ⟨rfl, hu⟩
    · rw [hx.kernel_old hu, hx.kernel_old hv]
      rcases hx.newW e he with he | ⟨w, _, rfl, _⟩
      · exact hw.value e he u v huv' hj
      · rcases joins_iff.mp hj with ⟨_, h2⟩ | ⟨_, h2⟩ <;> dsimp only at h2 <;> omega
    · rw [hs'.mergeCostSavings_comm hsym huv, hx.kernel_new, hx.kernel_old hu]
      rcases hx.newW e he with he | ⟨w, hw', rfl, _⟩
      · obtain ⟨h1, h2⟩ := hold e he
        rcases joins_iff.mp hj with ⟨_, h3⟩ | ⟨h3, _⟩ <;> omega
      · rcases joins_iff.mp hj with ⟨h1, _⟩ | ⟨h1, _⟩ <;> dsimp only at h1
        · rw [h1]
        · omega
  · intro u v huv hcost
    rcases hedge u v huv with ⟨huv', hu, hv⟩ | ⟨rfl, hu⟩
    · rw [hx.kernel_old hu, hx.kernel_old hv] at hcost
      obtain ⟨e, he, hj⟩ := hw.covered u v huv' hcost
      exact ⟨e, hx.keptW e he, hj⟩
    · rw [hs'.mergeCostSavings_comm hsym huv, hx.kernel_new, hx.kernel_old hu] at hcost
      exact hx.coverW u huv hcost

theorem weighed_fromBhir (hsym : FusibleSymm model l) :
    (fromBhir l model).Sound l ∧ Weighed model l (fromBhir l model) := by
  obtain ⟨hs, hw, _⟩ := fromBhir_induction model l (Weighed model l) ⟨rfl, by simp, by simp⟩
    fun g k h hb _ hx hb' hw => hx.weighed hsym hb.sound hb'.sound hw
  exact ⟨hs, hw⟩

/-! ## Merging and removing -/

section Merge
variable {a b : ℕ} {aBeforeB : Bool}

/-- Two vertices of a graph without loops. -/
structure Pair (g : GraphDW) (a b : ℕ) : Prop where
  inRange : InRange g.numVertices g.edgesD
  loopless : ∀ u v, (u, v) ∈ g.edgesD → u ≠ v
  ne : a ≠ b
  left : a < g.numVertices
  right : b < g.numVertices

theorem Mergeable.pair (hs : g.Sound l) (hm : Mergeable g a b aBeforeB) : Pair g a b :=
  ⟨hs.inRange, fun _ _ => hs.edge_ne, hm.ne, hm.live_left.lt, hm.live_right.lt⟩

/-- The merged kernel is fusible with another only if `a` was. -/
theorem Pair.fusible_left (hp : Pair g a b) {v : ℕ} (hva : v ≠ a) (hvb : v ≠ b)
    (hcost : 0 ≤ ((g.mergeVertices model l a b aBeforeB).kernel a).mergeCostSavings model l
      ((g.mergeVertices model l a b aBeforeB).kernel v)) :
    0 ≤ (g.kernel a).mergeCostSavings model l (g.kernel v) := by
  obtain ⟨hv, hka, _⟩ := kernel_mergeVertices (l := l) model aBeforeB hp.left hp.right v
  rw [mergeCostSavings_nonneg_iff, fusibleKernel_iff, hv hva hvb, hka hp.ne] at hcost
  rw [mergeCostSavings_nonneg_iff, fusibleKernel_iff]
  intro i hi j hj
  refine hcost i ?_ j hj
  split_ifs
  · exact List.mem_append_left _ hi
  · exact List.mem_append_right _ hi

/-- An edge away from `a` is an old one between unchanged kernels. -/
theorem Pair.edge_away (hp : Pair g a b) {u v : ℕ}
    (he : (u, v) ∈ (g.mergeVertices model l a b aBeforeB).edgesD) (hua : u ≠ a) (hva : v ≠ a) :
    (u, v) ∈ g.edgesD ∧ u ≠ b ∧ v ≠ b := by
  obtain ⟨_, x, y, hxy, hx, hy⟩ := (mem_edgesD_mergeVertices model aBeforeB hp.inRange hp.loopless hp.ne u v).mp he
  unfold contract at hx hy
  split_ifs at hx hy with hxb hyb
  · exact absurd hx.symm hua
  · exact absurd hx.symm hua
  · exact absurd hy.symm hva
  · subst hx hy
    exact ⟨hxy, hxb, by assumption⟩

/-- An edge at `a` comes from one at `a` or at `b`. -/
theorem Pair.edge_at (hp : Pair g a b) {v : ℕ}
    (he : (a, v) ∈ (g.mergeVertices model l a b aBeforeB).edgesD ∨
      (v, a) ∈ (g.mergeVertices model l a b aBeforeB).edgesD) :
    v ≠ a ∧ v ≠ b ∧ v < g.numVertices ∧
      ((a, v) ∈ g.edgesD ∨ (b, v) ∈ g.edgesD ∨ (v, a) ∈ g.edgesD ∨ (v, b) ∈ g.edgesD) := by
  have hedge := mem_edgesD_mergeVertices (l := l) model aBeforeB hp.inRange hp.loopless hp.ne
  have hab := hp.ne
  rcases he with he | he
  · obtain ⟨hne, x, y, hxy, hx, hy⟩ := (hedge a v).mp he
    obtain ⟨_, hylt⟩ := hp.inRange _ hxy
    unfold contract at hx hy
    split_ifs at hx hy with hxb hyb hyb
    · exact absurd hy hne
    · subst hxb hy
      exact ⟨hne.symm, hyb, hylt, Or.inr (Or.inl hxy)⟩
    · exact absurd hy hne
    · subst hx hy
      exact ⟨hne.symm, hyb, hylt, Or.inl hxy⟩
  · obtain ⟨hne, x, y, hxy, hx, hy⟩ := (hedge v a).mp he
    obtain ⟨hxlt, _⟩ := hp.inRange _ hxy
    unfold contract at hx hy
    split_ifs at hx hy with hxb hyb hyb
    · exact absurd hx.symm hne
    · exact absurd hx.symm hne
    · subst hyb hx
      exact ⟨hne, hxb, hxlt, Or.inr (Or.inr (Or.inr hxy))⟩
    · subst hx hy
      exact ⟨hne, hxb, hxlt, Or.inr (Or.inr (Or.inl hxy))⟩

/-- Every dependency edge between fusible kernels has a weight edge beside it. -/
def Covered (model : FuseModel) (l : List BhInstruction) (g : GraphDW) : Prop :=
  ∀ u v, (u, v) ∈ g.edgesD → 0 ≤ (g.kernel u).mergeCostSavings model l (g.kernel v) → Joined g.edgesW u v

/-- The kernels hold instructions of the list. -/
def Bounded (l : List BhInstruction) (g : GraphDW) : Prop := ∀ v i, i ∈ (g.kernel v).instrIndexes → i < l.length

theorem joined_comm {E : List EdgeW} {u v : ℕ} : Joined E u v ↔ Joined E v u := by
  unfold Joined
  refine exists_congr fun e => and_congr_right fun _ => ?_
  rw [joins_comm]

theorem Bounded.nonneg_comm (hsym : FusibleSymm model l) (hb : Bounded l g) (u v : ℕ) :
    0 ≤ (g.kernel u).mergeCostSavings model l (g.kernel v) ↔ 0 ≤ (g.kernel v).mergeCostSavings model l (g.kernel u) := by
  rw [mergeCostSavings_nonneg_iff, mergeCostSavings_nonneg_iff, fusibleKernel_comm hsym (hb u) (hb v)]

theorem Bounded.mergeVertices (hb : Bounded l g) (hp : Pair g a b) :
    Bounded l (g.mergeVertices model l a b aBeforeB) := by
  intro v i hi
  obtain ⟨hv, hka, hkb⟩ := kernel_mergeVertices (l := l) model aBeforeB hp.left hp.right v
  by_cases hva : v = a
  · subst hva
    rw [hka hp.ne] at hi
    split_ifs at hi
    · rcases List.mem_append.mp hi with hi | hi
      · exact hb v i hi
      · exact hb b i hi
    · rcases List.mem_append.mp hi with hi | hi
      · exact hb b i hi
      · exact hb v i hi
  · by_cases hvb : v = b
    · subst hvb
      rw [hkb] at hi
      cases hi
    · rw [hv hva hvb] at hi
      exact hb v i hi

/-- A vertex that gets an edge to `a` and is fusible with the merged kernel gets a weight edge. -/
theorem Covered.joined (hsym : FusibleSymm model l) (hb : Bounded l g) (hc : Covered model l g) (hp : Pair g a b) {v : ℕ}
    (he : (a, v) ∈ (g.mergeVertices model l a b aBeforeB).edgesD ∨
      (v, a) ∈ (g.mergeVertices model l a b aBeforeB).edgesD)
    (hcost : 0 ≤ ((g.mergeVertices model l a b aBeforeB).kernel a).mergeCostSavings model l
      ((g.mergeVertices model l a b aBeforeB).kernel v)) :
    Joined (g.mergeVertices model l a b aBeforeB).edgesW a v := by
  obtain ⟨hva, hvb, hlt, he⟩ := hp.edge_at he
  have hcost' := hp.fusible_left hva hvb hcost
  have hneighbour : MergeNeighbour g a b v := by
    rcases he with he | he | he | he
    · exact Or.inl (hc _ _ he hcost')
    · exact Or.inr (Or.inr (Or.inl he))
    · exact Or.inl (joined_comm.mp (hc _ _ he ((hb.nonneg_comm hsym a v).mp hcost')))
    · exact Or.inr (Or.inr (Or.inr he))
  exact joined_mergeVertices model aBeforeB hva hvb hp.ne hlt hneighbour hcost

theorem Covered.mergeVertices (hsym : FusibleSymm model l) (hb : Bounded l g) (hc : Covered model l g)
    (hp : Pair g a b) : Covered model l (g.mergeVertices model l a b aBeforeB) := by
  have hkernel := fun v => (kernel_mergeVertices (l := l) model aBeforeB hp.left hp.right v).1
  have hb' : Bounded l (g.mergeVertices model l a b aBeforeB) := hb.mergeVertices hp
  intro u v huv hcost
  by_cases hua : u = a
  · subst hua
    exact hc.joined hsym hb hp (Or.inl huv) hcost
  · by_cases hva : v = a
    · subst hva
      exact joined_comm.mp (hc.joined hsym hb hp (Or.inr huv) ((hb'.nonneg_comm hsym u v).mp hcost))
    · obtain ⟨huv', hub, hvb⟩ := hp.edge_away huv hua hva
      rw [hkernel u hua hub, hkernel v hva hvb] at hcost
      obtain ⟨e, he, hj⟩ := hc u v huv' hcost
      refine ⟨e, edgesW_mergeVertices_of_mem model aBeforeB he ?_ ?_ ?_ ?_, hj⟩ <;>
        rcases joins_iff.mp hj with ⟨h1, h2⟩ | ⟨h1, h2⟩ <;> omega

theorem Weighed.mergeVertices (hsym : FusibleSymm model l) (hs : g.Sound l) (hw : Weighed model l g)
    (hm : Mergeable g a b aBeforeB) : Weighed model l (g.mergeVertices model l a b aBeforeB) := by
  have hs' := hs.merge model hm
  have hkernel := fun v => (kernel_mergeVertices (l := l) model aBeforeB hm.live_left.lt hm.live_right.lt v).1
  have hends : ∀ e ∈ g.edgesW, e.source ≠ e.target := fun e he => (hs.ends e he).1
  have hp := hm.pair hs
  refine ⟨?_, ?_, ?_⟩
  · rw [numVertices_mergeVertices, ← hw.numW]
    cases aBeforeB <;> rfl
  · intro e he u v huv hj
    have hat : ∀ w, w ≠ a → e.joins a w = true → e.value =
        ((g.mergeVertices model l a b aBeforeB).kernel a).mergeCostSavings model l
          ((g.mergeVertices model l a b aBeforeB).kernel w) := by
      intro w hwa hjw
      rcases mem_edgesW_mergeVertices model aBeforeB hends he with ⟨_, h1, h2, _⟩ |
        ⟨w', hwa', _, hjw', _, _, hval⟩
      · rcases joins_iff.mp hjw with ⟨h, _⟩ | ⟨_, h⟩
        · exact absurd h h1
        · exact absurd h h2
      · obtain rfl := (opposite_of_joins hwa hjw).2.symm.trans (opposite_of_joins hwa' hjw').2
        exact hval
    by_cases hua : u = a
    · subst hua
      exact hat v (hs'.edge_ne huv).symm hj
    · by_cases hva : v = a
      · subst hva
        rw [hs'.mergeCostSavings_comm hsym huv]
        exact hat u hua (joins_comm e u v ▸ hj)
      · obtain ⟨huv', hub, hvb⟩ := hp.edge_away huv hua hva
        rw [hkernel u hua hub, hkernel v hva hvb]
        rcases mem_edgesW_mergeVertices model aBeforeB hends he with ⟨he', _⟩ | ⟨w, _, _, hjw, _⟩
        · exact hw.value e he' u v huv' hj
        · rcases joins_iff.mp hj with ⟨h1, h2⟩ | ⟨h1, h2⟩ <;>
            rcases joins_iff.mp hjw with ⟨h3, h4⟩ | ⟨h3, h4⟩ <;> omega
  · exact Covered.mergeVertices hsym hs.bounded hw.covered hp

end Merge

theorem Covered.removeEdges (hc : Covered model l g) (v1 v2 : ℕ) : Covered model l (g.removeEdges v1 v2) := by
  intro u v huv hcost
  obtain ⟨huv, hne⟩ := List.mem_filter.mp huv
  simp only [ne_eq, Prod.mk.injEq, decide_eq_true_eq] at hne
  obtain ⟨e, he, hj⟩ := hc u v huv hcost
  refine ⟨e, List.mem_filter.mpr ⟨he, ?_⟩, hj⟩
  rw [Bool.not_eq_true', Bool.eq_false_iff]
  intro hj'
  rcases joins_iff.mp hj with ⟨h1, h2⟩ | ⟨h1, h2⟩ <;>
    rcases joins_iff.mp hj' with ⟨h3, h4⟩ | ⟨h3, h4⟩ <;> omega

theorem Weighed.removeEdges (hw : Weighed model l g) (v1 v2 : ℕ) : Weighed model l (g.removeEdges v1 v2) := by
  refine ⟨hw.numW, fun e he u v huv => ?_, Covered.removeEdges hw.covered v1 v2⟩
  exact hw.value e (List.mem_filter.mp he).1 u v (List.mem_filter.mp huv).1

theorem Weighed.transitiveReduction (hw : Weighed model l g) :
    Weighed model l g.transitiveReduction := by
  refine ⟨hw.numW, fun e he u v huv => ?_, fun u v huv hcost => ?_⟩
  · exact hw.value e (List.mem_filter.mp he).1 u v (List.mem_filter.mp huv).1
  · obtain ⟨e, he, hj⟩ := hw.covered u v (List.mem_filter.mp huv).1 hcost
    refine ⟨e, List.mem_filter.mpr ⟨he, ?_⟩, hj⟩
    simp only [Bool.or_eq_true, decide_eq_true_eq]
    refine Or.inl ?_
    rcases joins_iff.mp hj with ⟨rfl, rfl⟩ | ⟨rfl, rfl⟩
    · exact Or.inl huv
    · exact Or.inr huv

/-- A part of a weighed graph is weighed. -/
theorem PartOf.weighed {g' : GraphDW} {vs : List ℕ} (h : PartOf g' g vs) (hnum : g'.numW = g'.numVertices)
    (hw : Weighed model l g) : Weighed model l g' := by
  refine ⟨hnum, fun e he u v huv hj => ?_, fun u v huv hcost => ?_⟩
  · obtain ⟨f, hf, hfs, hft, rfl⟩ := h.edgesW e he
    obtain ⟨x, y, hxy, hx, hy, rfl, rfl⟩ := (h.edgesD u v).mp huv
    rw [h.kernel_idxOf hx, h.kernel_idxOf hy]
    refine hw.value f hf x y hxy (joins_iff.mpr ?_)
    rcases joins_iff.mp hj with ⟨h1, h2⟩ | ⟨h1, h2⟩
    · exact Or.inl ⟨idxOf_inj hfs h1, idxOf_inj hft h2⟩
    · exact Or.inr ⟨idxOf_inj hfs h1, idxOf_inj hft h2⟩
  · obtain ⟨x, y, hxy, hx, hy, rfl, rfl⟩ := (h.edgesD u v).mp huv
    rw [h.kernel_idxOf hx, h.kernel_idxOf hy] at hcost
    obtain ⟨f, hf, hj⟩ := hw.covered x y hxy hcost
    rcases joins_iff.mp hj with ⟨rfl, rfl⟩ | ⟨rfl, rfl⟩
    · exact ⟨_, h.keptW f hf hx hy, joins_iff.mpr (Or.inl ⟨rfl, rfl⟩)⟩
    · exact ⟨_, h.keptW f hf hy hx, joins_iff.mpr (Or.inr ⟨rfl, rfl⟩)⟩

theorem Weighed.removeClearedVertices (hs : g.Sound l) (hw : Weighed model l g) :
    Weighed model l g.removeClearedVertices := by
  refine (partOf_removeClearedVertices hs).weighed ?_ hw
  have hle : g.live.length ≤ g.numVertices := by
    have := List.length_filter_le (fun v => decide ((g.kernel v).instrIndexes ≠ []))
      (List.range g.numVertices)
    simpa [live] using this
  rw [(partOf_removeClearedVertices hs).numVertices_eq]
  change g.numW - (g.numVertices - g.live.length) = g.live.length
  rw [hw.numW]
  omega

theorem Weighed.greedyStep (hsym : FusibleSymm model l) (hs : g.Sound l) (hw : Weighed model l g)
    {e : EdgeW} (he : e ∈ g.edgesW) : Weighed model l (g.greedyStep model l e.source e.target) := by
  obtain ⟨hne, h1, h2⟩ := hs.ends e he
  rcases greedyStep_cases model hs hne h1 h2 with ⟨heq, _⟩ | ⟨a, b, heq, hm, _⟩ <;> rw [heq]
  · exact hw.removeEdges _ _
  · exact hw.mergeVertices hsym hs hm

/-! ## Runs -/

/-- The graphs that the fusers work on: the one `from_bhir` builds, and what single merges and edge
removals of `fuse_gently` and `fuse_greedy`, these two as a whole, `remove_cleared_vertices`,
`transitive_reduction` and `split` make of such a graph. -/
inductive Reachable (boost : Boost) (model : FuseModel) (l : List BhInstruction) : GraphDW → Prop
  | fromBhir : Reachable boost model l (fromBhir l model)
  | gentleMerge {g : GraphDW} {v w : ℕ} {wBeforeV : Bool} : Reachable boost model l g →
      g.singleEnding v = some (w, wBeforeV) → (g.kernel v).fusibleKernel model l (g.kernel w) = true →
      Reachable boost model l (g.mergeVertices model l w v wBeforeV)
  | greedyStep {g : GraphDW} {e : EdgeW} : Reachable boost model l g → e ∈ g.edgesW →
      Reachable boost model l (g.greedyStep model l e.source e.target)
  | fuseGently {g : GraphDW} : Reachable boost model l g → Reachable boost model l (g.fuseGently model l)
  | fuseGreedy {g : GraphDW} : Reachable boost model l g → Reachable boost model l (g.fuseGreedy model l)
  | removeClearedVertices {g : GraphDW} : Reachable boost model l g →
      Reachable boost model l g.removeClearedVertices
  | transitiveReduction {g : GraphDW} : Reachable boost model l g →
      Reachable boost model l g.transitiveReduction
  | split {g d : GraphDW} {dags : List GraphDW} : Reachable boost model l g →
      split boost g = some dags → d ∈ dags → Reachable boost model l d

theorem Reachable.weighed {boost : Boost} (hsym : FusibleSymm model l) (h : Reachable boost model l g) :
    g.Sound l ∧ Weighed model l g := by
  have hgentle : ∀ g v w wBeforeV, (g.Sound l ∧ Weighed model l g) →
      g.singleEnding v = some (w, wBeforeV) → (g.mergeVertices model l w v wBeforeV).Sound l ∧
        Weighed model l (g.mergeVertices model l w v wBeforeV) := by
    intro g v w wBeforeV hg hse
    have hm := mergeable_of_singleEnding hg.1 hse
    exact ⟨hg.1.merge model hm, hg.2.mergeVertices hsym hg.1 hm⟩
  have hgreedy : ∀ g, ∀ e ∈ g.edgesW, (g.Sound l ∧ Weighed model l g) →
      (g.greedyStep model l e.source e.target).Sound l ∧
        Weighed model l (g.greedyStep model l e.source e.target) := by
    intro g e he hg
    obtain ⟨hne, h1, h2⟩ := hg.1.ends e he
    exact ⟨(hg.1.greedyStep model hne h1 h2).1, hg.2.greedyStep hsym hg.1 he⟩
  induction h with
  | fromBhir => exact weighed_fromBhir hsym
  | gentleMerge _ hse _ ih => exact hgentle _ _ _ _ ih hse
  | greedyStep _ he ih => exact hgreedy _ _ he ih
  | @fuseGently g _ ih =>
    have hloop := fuseGentlyLoop_induction model (P := fun g => g.Sound l ∧ Weighed model l g)
      (fun g v w wBeforeV hg hse _ => hgentle g v w wBeforeV hg hse) g.numVertices
      (List.range g.numVertices) ih
    exact ⟨hloop.1.removeClearedVertices, hloop.2.removeClearedVertices hloop.1⟩
  | @fuseGreedy g _ ih =>
    have hloop := fuseGreedyLoop_induction model (P := fun g => g.Sound l ∧ Weighed model l g)
      hgreedy g.greedyFuel ih
    exact ⟨hloop.1.removeClearedVertices, hloop.2.removeClearedVertices hloop.1⟩
  | removeClearedVertices _ ih => exact ⟨ih.1.removeClearedVertices, ih.2.removeClearedVertices ih.1⟩
  | transitiveReduction _ ih => exact ⟨ih.1.transitiveReduction, ih.2.transitiveReduction⟩
  | @split g d dags _ hsplit hd ih =>
    obtain ⟨parts, hparts, hsplits⟩ := ih.1.split boost
    obtain rfl := Option.some.inj (hsplit.symm.trans hparts)
    obtain ⟨vs, hvs, rfl⟩ := List.mem_map.mp hd
    refine ⟨Splits.sound hsplits ih.1 hvs, (partOf_subgraph g vs).weighed ?_ ih.2⟩
    rw [(partOf_subgraph g vs).numVertices_eq]
    rfl

/-- Every graph the fusers reach is valid, if `check_fusible` does not depend on the order of its
arguments. -/
theorem dagValidate_of_reachable (boost : Boost) (model : FuseModel) (l : List BhInstruction)
    (hsym : FusibleSymm model l) (g : GraphDW) (h : Reachable boost model l g) :
    dagValidate model l boost g = true := by
  obtain ⟨hs, hw⟩ := h.weighed hsym
  exact hw.dagValidate boost hs

end
/-- `y = x + 1; z = y * 2; BH_DISCARD y` on three vectors of three elements. -/
def addThenDouble : List BhInstruction :=
  let vec : ℕ → BhView := fun addr => ⟨some ⟨addr, .int64, 3⟩, 0, [⟨3, 1⟩]⟩
  let c : BhView := ⟨none, 0, []⟩
  [⟨.add, vec 1, vec 0, c, .int .int64 1⟩, ⟨.multiply, vec 2, vec 1, c, .int .int64 2⟩,
    ⟨.discard, vec 1, c, c, .int .int64 0⟩]

theorem dagValidate_addThenDouble : dagValidate .sameShape addThenDouble plainBoost
    ((fromBhir addThenDouble .sameShape).fuseGreedy .sameShape addThenDouble) = true :=
  dagValidate_of_reachable plainBoost .sameShape addThenDouble (by unfold FusibleSymm; decide) _
    (Reachable.fuseGreedy Reachable.fromBhir)

/-- `s = t + 1` on one-element vectors, then `y = s * 2` on the same element as 1 x 1 matrices. -/
def scalarThenMatrix : List BhInstruction :=
  let vec : ℕ → BhView := fun addr => ⟨some ⟨addr, .int64, 1⟩, 0, [⟨1, 1⟩]⟩
  let mat : ℕ → BhView := fun addr => ⟨some ⟨addr, .int64, 1⟩, 0, [⟨1, 1⟩, ⟨1, 1⟩]⟩
  let c : BhView := ⟨none, 0, []⟩
  [⟨.add, vec 1, vec 0, c, .int .int64 1⟩, ⟨.multiply, mat 2, mat 1, c, .int .int64 2⟩]

/-- `add_vertex` asks whether the second kernel is fusible with the first and adds no weight edge;
`dag_validate` asks the other way round and misses it. -/
theorem not_dagValidate_scalarThenMatrix :
    dagValidate .sameShapeGenerate1dreduce scalarThenMatrix plainBoost
      (fromBhir scalarThenMatrix .sameShapeGenerate1dreduce) = false := by
  decide +kernel

end GraphDW
end Bohrium
