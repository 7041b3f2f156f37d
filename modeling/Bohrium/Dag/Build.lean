import Bohrium.Dag.Merging

/-! # Building the graph

`from_bhir` adds one vertex after the other. A new vertex is joined to every earlier vertex it
depends on, directly or by a path that is already there, because dependent kernels share a base
array and the map from base arrays to vertices is complete. -/
namespace Bohrium
open Relation Edges Reorder
set_option autoImplicit false

/-! ## Runs of instructions -/

theorem kernelRunsLoop_spec (l : List BhInstruction) (accept : BhIrKernel → ℕ → Bool) (k : BhIrKernel)
    (rest : List ℕ) (hk : k.instrIndexes ≠ []) :
    (kernelRunsLoop l accept k rest).flatMap BhIrKernel.instrIndexes = k.instrIndexes ++ rest ∧
      ∀ k' ∈ kernelRunsLoop l accept k rest, k'.instrIndexes ≠ [] := by
  induction rest generalizing k with
  | nil => simp [kernelRunsLoop, hk]
  | cons idx rest ih =>
    rw [kernelRunsLoop]
    split_ifs
    · obtain ⟨h1, h2⟩ := ih (k.addInstr l idx) (by simp [BhIrKernel.instrIndexes_addInstr])
      refine ⟨?_, h2⟩
      rw [h1, BhIrKernel.instrIndexes_addInstr, List.append_assoc, List.singleton_append]
    · obtain ⟨h1, h2⟩ := ih (BhIrKernel.addInstr l {} idx) (by simp [BhIrKernel.instrIndexes_addInstr])
      refine ⟨?_, ?_⟩
      · rw [List.flatMap_cons, h1, BhIrKernel.instrIndexes_addInstr]
        rfl
      · intro k' hk'
        rcases List.mem_cons.mp hk' with rfl | hk'
        · exact hk
        · exact h2 k' hk'

/-- The kernels hold all instructions in order, and none is empty. -/
theorem kernelRuns_spec (l : List BhInstruction) (accept : BhIrKernel → ℕ → Bool) :
    (kernelRuns l accept).flatMap BhIrKernel.instrIndexes = List.range l.length ∧
      ∀ k ∈ kernelRuns l accept, k.instrIndexes ≠ [] := by
  unfold kernelRuns
  cases h : List.range l.length with
  | nil => simp
  | cons idx rest =>
    obtain ⟨h1, h2⟩ := kernelRunsLoop_spec l accept (BhIrKernel.addInstr l {} idx) rest
      (by simp [BhIrKernel.instrIndexes_addInstr])
    exact ⟨h1, h2⟩

/-! ## Bases -/

theorem mem_basesOf {l : List BhInstruction} {k : BhIrKernel} {base : BhBase} :
    base ∈ GraphDW.basesOf l k ↔
      ∃ i ∈ k.instrIndexes, ∃ v ∈ (instrAt l i).operands, v.base = some base := by
  simp [GraphDW.basesOf]

theorem shared_base_of_dependency {l : List BhInstruction} {k other : BhIrKernel}
    (h : k.dependency l other ≠ 0) :
    ∃ base, base ∈ GraphDW.basesOf l k ∧ base ∈ GraphDW.basesOf l other := by
  have key : ∀ i ∈ other.instrIndexes, ∀ j ∈ k.instrIndexes, dependencyAt l i j = true →
      ∃ base, base ∈ GraphDW.basesOf l k ∧ base ∈ GraphDW.basesOf l other := by
    intro i hi j hj hd
    rw [dependencyAt_eq] at hd
    obtain ⟨base, ⟨u, hu, hub⟩, v, hv, hvb⟩ := bhInstrDependency_shared_base hd
    exact ⟨base, mem_basesOf.mpr ⟨j, hj, v, hv, hvb⟩, mem_basesOf.mpr ⟨i, hi, u, hu, hub⟩⟩
  rcases BhIrKernel.dependency_cases l k other with ⟨h0, _⟩ | ⟨_, i, hi, j, hj, _, hd⟩ |
    ⟨_, i, hi, j, hj, _, hd⟩
  · exact absurd h0 h
  · exact key i hi j hj hd
  · exact key j hj i hi (dependencyAt_comm l i j ▸ hd)

theorem lookup_map_replace {α β : Type} [DecidableEq α] (m : List (α × β)) (a b : α) (y : β) :
    (m.map fun p => if p.1 = a then (p.1, y) else p).lookup b =
      if b = a then (m.lookup b).map fun _ => y else m.lookup b := by
  induction m with
  | nil => simp
  | cons p m ih =>
    obtain ⟨c, x⟩ := p
    rw [List.map_cons]
    by_cases hbc : b = c
    · subst hbc
      by_cases hba : b = a <;> simp [hba]
    · have hne : (b == c) = false := beq_eq_false_iff_ne.mpr hbc
      by_cases hca : c = a
      · rw [if_pos hca, List.lookup_cons, List.lookup_cons]
        simp only [hne]
        exact ih
      · rw [if_neg hca, List.lookup_cons, List.lookup_cons]
        simp only [hne]
        exact ih

/-! ## One vertex -/

namespace GraphDW

section
variable (model : FuseModel) (l : List BhInstruction)

/-- The graph `h` on the way from `g` to `g` with the vertex of kernel `k`. -/
structure Extends (g : GraphDW) (k : BhIrKernel) (h : GraphDW) : Prop where
  kernels : h.kernels = g.kernels ++ [k]
  numW : h.numW = g.numW + 1
  keptD : ∀ e ∈ g.edgesD, e ∈ h.edgesD
  newD : ∀ e ∈ h.edgesD, e ∈ g.edgesD ∨
    ∃ v < g.numVertices, e = (v, g.numVertices) ∧ k.dependency l (g.kernel v) ≠ 0
  keptW : ∀ e ∈ g.edgesW, e ∈ h.edgesW
  newW : ∀ e ∈ h.edgesW, e ∈ g.edgesW ∨ ∃ v < g.numVertices,
    e = ⟨v, g.numVertices, k.mergeCostSavings model l (g.kernel v)⟩ ∧
      0 ≤ k.mergeCostSavings model l (g.kernel v)
  coverW : ∀ v, (v, g.numVertices) ∈ h.edgesD → 0 ≤ k.mergeCostSavings model l (g.kernel v) →
    Joined h.edgesW v g.numVertices
  simple : h.edgesW.Pairwise fun e f => f.joins e.source e.target = false

variable {model l} {g h : GraphDW} {k : BhIrKernel}

theorem Extends.kernel_old (hx : Extends model l g k h) {v : ℕ} (hv : v < g.numVertices) :
    h.kernel v = g.kernel v := by
  unfold kernel
  rw [hx.kernels, List.getD_append _ _ _ _ hv]

theorem Extends.kernel_new (hx : Extends model l g k h) : h.kernel g.numVertices = k := by
  unfold kernel numVertices
  rw [hx.kernels, List.getD_append_right _ _ _ _ (le_refl _)]
  simp

theorem Extends.kernel_other (hx : Extends model l g k h) {v : ℕ} (hv : g.numVertices < v) :
    h.kernel v = {} := by
  apply kernel_of_ge
  rw [numVertices, hx.kernels, List.length_append, List.length_singleton]
  exact hv

theorem extends_appendVertex (model : FuseModel) (k : BhIrKernel) (hs : g.Sound l) :
    Extends model l g k (g.appendVertex k) where
  kernels := rfl
  numW := rfl
  keptD := fun _ he => he
  newD := fun _ he => Or.inl he
  keptW := fun _ he => he
  newW := fun _ he => Or.inl he
  coverW := fun _ he _ => absurd (hs.inRange _ he).2 (lt_irrefl _)
  simple := hs.simple

theorem Extends.connect (hx : Extends model l g k h) {v : ℕ} (hv : v ≤ g.numVertices) :
    Extends model l g k (h.connect model l g.numVertices k v) := by
  unfold GraphDW.connect
  by_cases hskip : (g.numVertices == v || pathExist v g.numVertices h.edgesD false) = true
  · rw [if_pos hskip]
    exact hx
  · rw [if_neg hskip]
    have hlt : v < g.numVertices := by
      rcases Nat.lt_or_eq_of_le hv with hlt | rfl
      · exact hlt
      · simp at hskip
    have hold := hx.kernel_old hlt
    refine ⟨hx.kernels, hx.numW, ?_, ?_, ?_, ?_, ?_, ?_⟩
    · intro e he
      dsimp only
      split_ifs
      · exact mem_setInsert.mpr (Or.inr (hx.keptD e he))
      · exact hx.keptD e he
    · intro e he
      dsimp only at he
      split_ifs at he with hdep
      · rcases mem_setInsert.mp he with rfl | he
        · exact Or.inr ⟨v, hlt, rfl, hold ▸ hdep⟩
        · exact hx.newD e he
      · exact hx.newD e he
    · intro e he
      dsimp only
      split_ifs
      · exact subset_addEdgeW (hx.keptW e he)
      · exact hx.keptW e he
    · intro e he
      dsimp only at he
      split_ifs at he with hcost
      · rcases mem_addEdgeW he with he | ⟨rfl, _⟩
        · exact hx.newW e he
        · rw [hold] at hcost ⊢
          exact Or.inr ⟨v, hlt, rfl, by omega⟩
      · exact hx.newW e he
    · intro w hw hcw
      dsimp only at hw ⊢
      -- the edge was there, or it is the new one, whose weight edge is added along with it
      have hcase : (w, g.numVertices) ∈ h.edgesD ∨ (w = v ∧ k.dependency l (h.kernel v) ≠ 0) := by
        split_ifs at hw with hdep
        · rcases mem_setInsert.mp hw with heq | hw
          · exact Or.inr ⟨(Prod.mk.inj heq).1, hdep⟩
          · exact Or.inl hw
        · exact Or.inl hw
      rcases hcase with hw | ⟨rfl, hdep⟩
      · obtain ⟨e, he, hj⟩ := hx.coverW w hw hcw
        split_ifs
        · exact ⟨e, subset_addEdgeW he, hj⟩
        · exact ⟨e, he, hj⟩
      · rw [← hold] at hcw
        rw [if_pos (by omega)]
        exact joined_addEdgeW _ _ _ _
    · dsimp only
      split_ifs
      · exact simple_addEdgeW hx.simple
      · exact hx.simple

theorem connect_mono {d v : ℕ} {e : ℕ × ℕ} (he : e ∈ h.edgesD) :
    e ∈ (h.connect model l d k v).edgesD := by
  unfold GraphDW.connect
  split_ifs
  · exact he
  · dsimp only
    split_ifs
    · exact mem_setInsert.mpr (Or.inr he)
    · exact he

theorem Extends.connect_progress (hx : Extends model l g k h) {v : ℕ} (hv : v < g.numVertices)
    (hdep : k.dependency l (g.kernel v) ≠ 0) :
    TransGen (Adj (h.connect model l g.numVertices k v).edgesD) v g.numVertices := by
  unfold GraphDW.connect
  split_ifs with hskip
  · rcases Bool.or_eq_true_iff.mp hskip with heq | hp
    · rw [beq_iff_eq] at heq
      omega
    · exact (pathExist_iff _ _ _).mp hp
  · refine TransGen.single ?_
    rw [← hx.kernel_old hv] at hdep
    dsimp only [Adj]
    rw [if_pos hdep]
    exact mem_setInsert.mpr (Or.inl rfl)

/-- All vertices of a list connected. -/
theorem Extends.foldl_connect (hx : Extends model l g k h) (vs : List ℕ)
    (hvs : ∀ v ∈ vs, v ≤ g.numVertices) :
    Extends model l g k (vs.foldl (GraphDW.connect model l g.numVertices k) h) ∧
      (∀ e ∈ h.edgesD, e ∈ (vs.foldl (GraphDW.connect model l g.numVertices k) h).edgesD) ∧
      ∀ v ∈ vs, v < g.numVertices → k.dependency l (g.kernel v) ≠ 0 →
        TransGen (Adj (vs.foldl (GraphDW.connect model l g.numVertices k) h).edgesD) v
          g.numVertices := by
  induction vs generalizing h with
  | nil => exact ⟨hx, fun e he => he, by simp⟩
  | cons v vs ih =>
    obtain ⟨h1, h2, h3⟩ := ih (hx.connect (hvs v List.mem_cons_self))
      (fun w hw => hvs w (List.mem_cons_of_mem v hw))
    refine ⟨h1, fun e he => h2 e (connect_mono he), ?_⟩
    intro w hw hlt hdep
    rcases List.mem_cons.mp hw with rfl | hw
    · exact TransGen.mono (fun x y he => h2 (x, y) he) _ _ (hx.connect_progress hlt hdep)
    · exact h3 w hw hlt hdep

theorem base2vertices_connect (d v : ℕ) :
    (h.connect model l d k v).base2vertices = h.base2vertices := by
  unfold GraphDW.connect
  split_ifs <;> rfl

theorem base2vertices_foldl_connect (d : ℕ) (vs : List ℕ) :
    (vs.foldl (GraphDW.connect model l d k) h).base2vertices = h.base2vertices := by
  induction vs generalizing h with
  | nil => rfl
  | cons v vs ih => rw [List.foldl_cons, ih, base2vertices_connect]

/-- The map from base arrays to vertices knows every earlier vertex, and the new one for the base
arrays already handled. -/
structure BasesKnown (l : List BhInstruction) (g : GraphDW) (handled : List BhBase) (h : GraphDW) : Prop where
  old : ∀ v < g.numVertices, ∀ base ∈ basesOf l (g.kernel v),
    ∃ vs, h.base2vertices.lookup base = some vs ∧ v ∈ vs
  new : ∀ base ∈ handled, ∃ vs, h.base2vertices.lookup base = some vs ∧ g.numVertices ∈ vs
  bound : ∀ base vs, h.base2vertices.lookup base = some vs → ∀ v ∈ vs, v ≤ g.numVertices

/-- One base array handled. -/
theorem Extends.connectBase (hx : Extends model l g k h) {handled : List BhBase}
    (hb : BasesKnown l g handled h) (base : BhBase) :
    Extends model l g k (h.connectBase model l g.numVertices k base) ∧
      BasesKnown l g (handled ++ [base]) (h.connectBase model l g.numVertices k base) ∧
      (∀ e ∈ h.edgesD, e ∈ (h.connectBase model l g.numVertices k base).edgesD) ∧
      ∀ v < g.numVertices, base ∈ basesOf l (g.kernel v) → k.dependency l (g.kernel v) ≠ 0 →
        TransGen (Adj (h.connectBase model l g.numVertices k base).edgesD) v g.numVertices := by
  unfold GraphDW.connectBase
  cases hlook : h.base2vertices.lookup base with
  | none =>
    have hself : ∀ b, (h.base2vertices ++ [(base, [g.numVertices])]).lookup b =
        (h.base2vertices.lookup b).or (if b = base then some [g.numVertices] else none) := by
      intro b
      rw [List.lookup_append]
      by_cases hbb : b = base
      · simp [hbb]
      · have hne : (b == base) = false := beq_eq_false_iff_ne.mpr hbb
        simp [List.lookup_cons, hbb, hne]
    refine ⟨⟨hx.kernels, hx.numW, hx.keptD, hx.newD, hx.keptW, hx.newW, hx.coverW, hx.simple⟩,
      ⟨?_, ?_, ?_⟩, fun e he => he, ?_⟩
    · intro v hv b hbv
      obtain ⟨vs, hvs, hmem⟩ := hb.old v hv b hbv
      exact ⟨vs, by rw [hself, hvs, Option.some_or], hmem⟩
    · intro b hbh
      rcases List.mem_append.mp hbh with hbh | hbh
      · obtain ⟨vs, hvs, hmem⟩ := hb.new b hbh
        exact ⟨vs, by rw [hself, hvs, Option.some_or], hmem⟩
      · rw [List.mem_singleton] at hbh
        subst hbh
        exact ⟨[g.numVertices], by rw [hself, hlook, Option.none_or, if_pos rfl], List.mem_singleton_self _⟩
    · intro b vs hvs v hv
      rw [hself] at hvs
      cases hold : h.base2vertices.lookup b with
      | some ws =>
        rw [hold, Option.some_or] at hvs
        exact hb.bound b vs (hold.trans hvs) v hv
      | none =>
        rw [hold, Option.none_or] at hvs
        split_ifs at hvs
        obtain rfl := Option.some.inj hvs
        rw [List.mem_singleton.mp hv]
    · intro v hv hbv _
      obtain ⟨vs, hvs, _⟩ := hb.old v hv base hbv
      rw [hlook] at hvs
      cases hvs
  | some vs =>
    have hbound := hb.bound base vs hlook
    obtain ⟨h1, h2, h3⟩ := hx.foldl_connect vs hbound
    have hself : ∀ b, ((vs.foldl (GraphDW.connect model l g.numVertices k) h).base2vertices.map
        fun p => if p.1 = base then (p.1, setInsert g.numVertices vs) else p).lookup b =
        if b = base then some (setInsert g.numVertices vs) else h.base2vertices.lookup b := by
      intro b
      rw [base2vertices_foldl_connect, lookup_map_replace]
      by_cases hbb : b = base
      · rw [if_pos hbb, if_pos hbb, hbb, hlook]
        rfl
      · rw [if_neg hbb, if_neg hbb]
    refine ⟨⟨h1.kernels, h1.numW, h1.keptD, h1.newD, h1.keptW, h1.newW, h1.coverW, h1.simple⟩,
      ⟨?_, ?_, ?_⟩, h2, ?_⟩
    · intro v hv b hbv
      obtain ⟨ws, hws, hmem⟩ := hb.old v hv b hbv
      simp only [hself]
      by_cases hbb : b = base
      · subst hbb
        rw [hlook] at hws
        obtain rfl := Option.some.inj hws
        exact ⟨_, if_pos rfl, mem_setInsert.mpr (Or.inr hmem)⟩
      · exact ⟨ws, by rw [if_neg hbb, hws], hmem⟩
    · intro b hbh
      simp only [hself]
      by_cases hbb : b = base
      · exact ⟨_, if_pos hbb, mem_setInsert.mpr (Or.inl rfl)⟩
      · rcases List.mem_append.mp hbh with hbh | hbh
        · obtain ⟨ws, hws, hmem⟩ := hb.new b hbh
          exact ⟨ws, by rw [if_neg hbb, hws], hmem⟩
        · exact absurd (List.mem_singleton.mp hbh) hbb
    · intro b ws hws v hv
      simp only [hself] at hws
      split_ifs at hws with hbb
      · obtain rfl := Option.some.inj hws
        rcases mem_setInsert.mp hv with rfl | hv
        · exact le_refl _
        · exact hbound v hv
      · exact hb.bound b ws hws v hv
    · intro v hv hbv hdep
      obtain ⟨ws, hws, hmem⟩ := hb.old v hv base hbv
      rw [hlook] at hws
      obtain rfl := Option.some.inj hws
      exact h3 v hmem hv hdep

/-- All base arrays of a list handled. -/
theorem Extends.foldl_connectBase (hx : Extends model l g k h) {handled : List BhBase}
    (hb : BasesKnown l g handled h) (bases : List BhBase) :
    Extends model l g k (bases.foldl (GraphDW.connectBase model l g.numVertices k) h) ∧
      BasesKnown l g (handled ++ bases) (bases.foldl (GraphDW.connectBase model l g.numVertices k) h) ∧
      (∀ e ∈ h.edgesD, e ∈ (bases.foldl (GraphDW.connectBase model l g.numVertices k) h).edgesD) ∧
      ∀ base ∈ bases, ∀ v < g.numVertices, base ∈ basesOf l (g.kernel v) →
        k.dependency l (g.kernel v) ≠ 0 →
        TransGen (Adj (bases.foldl (GraphDW.connectBase model l g.numVertices k) h).edgesD) v
          g.numVertices := by
  induction bases generalizing h handled with
  | nil => exact ⟨hx, by simpa using hb, fun e he => he, by simp⟩
  | cons base bases ih =>
    obtain ⟨hx', hb', hmono, hprog⟩ := hx.connectBase hb base
    obtain ⟨h1, h2, h3, h4⟩ := ih hx' hb'
    refine ⟨h1, by simpa using h2, fun e he => h3 e (hmono e he), ?_⟩
    intro b hmem v hv hbv hdep
    rcases List.mem_cons.mp hmem with rfl | hmem
    · exact TransGen.mono (fun x y he => h3 (x, y) he) _ _ (hprog v hv hbv hdep)
    · exact h4 b hmem v hv hbv hdep

/-! ## The whole list -/

/-- The kernel can come next: its instructions are in order and come after those of the graph. -/
structure Next (l : List BhInstruction) (g : GraphDW) (k : BhIrKernel) : Prop where
  sorted : k.instrIndexes.Pairwise (· < ·)
  nonempty : k.instrIndexes ≠ []
  after : ∀ i, g.Holds i → ∀ j ∈ k.instrIndexes, i < j
  bounded : ∀ j ∈ k.instrIndexes, j < l.length

theorem pair_sublist_of_sorted {is : List ℕ} (h : is.Pairwise (· < ·)) {i j : ℕ} (hi : i ∈ is)
    (hj : j ∈ is) (hij : i < j) : [i, j].Sublist is := by
  induction is with
  | nil => cases hi
  | cons x is ih =>
    obtain ⟨hx, his⟩ := List.pairwise_cons.mp h
    rw [pair_sublist_cons]
    rcases List.mem_cons.mp hj with rfl | hj'
    · rcases List.mem_cons.mp hi with rfl | hi'
      · omega
      · have := hx i hi'
        omega
    · rcases List.mem_cons.mp hi with rfl | hi'
      · exact Or.inr ⟨rfl, hj'⟩
      · exact Or.inl (ih his hi' hj')

/-- The finished extension of a sound graph is sound. -/
theorem Extends.sound (hx : Extends model l g k h) (hs : g.Sound l) (hlive : ∀ v < g.numVertices, g.Live v)
    (hn : Next l g k) (hdep : ∀ v < g.numVertices, k.dependency l (g.kernel v) ≠ 0 →
      TransGen (Adj h.edgesD) v g.numVertices) : h.Sound l := by
  have hold : ∀ v, v < g.numVertices → h.blocks.block v = g.blocks.block v := fun v hv =>
    congrArg BhIrKernel.instrIndexes (hx.kernel_old hv)
  have hnew : h.blocks.block g.numVertices = k.instrIndexes :=
    congrArg BhIrKernel.instrIndexes hx.kernel_new
  have hother : ∀ v, g.numVertices < v → h.blocks.block v = [] := fun v hv =>
    congrArg BhIrKernel.instrIndexes (hx.kernel_other hv)
  have hblock : ∀ v i, i ∈ h.blocks.block v → (v < g.numVertices ∧ i ∈ g.blocks.block v) ∨
      (v = g.numVertices ∧ i ∈ k.instrIndexes) := by
    intro v i hi
    rcases Nat.lt_trichotomy v g.numVertices with hlt | rfl | hgt
    · exact Or.inl ⟨hlt, hold v hlt ▸ hi⟩
    · exact Or.inr ⟨rfl, hnew ▸ hi⟩
    · rw [hother v hgt] at hi
      cases hi
  have hnoout : ∀ x, (g.numVertices, x) ∉ h.edgesD := by
    intro x he
    rcases hx.newD _ he with hold | ⟨v, hv, heq, _⟩
    · exact lt_irrefl _ (hs.inRange _ hold).1
    · have := (Prod.mk.inj heq).1
      omega
  -- the new vertex has no edge out of it, so a path that ends elsewhere is an old one
  have hpath_old : ∀ u v, v ≠ g.numVertices → TransGen (Adj h.edgesD) u v →
      TransGen (Adj g.edgesD) u v := by
    intro u v hv hp
    refine path_of_keeps hp fun x y _ hxy hyv => ?_
    rcases hx.newD _ hxy with hold | ⟨w, _, heq, _⟩
    · exact hold
    · obtain ⟨rfl, rfl⟩ := Prod.mk.inj heq
      obtain ⟨z, hz, _⟩ := path_first (path_of_refl hyv (Ne.symm hv))
      exact absurd hz (hnoout z)
  refine ⟨⟨?_, ?_, ?_, ?_, ?_, ?_⟩, ?_, ?_, hx.simple⟩
  · intro v
    rcases Nat.lt_trichotomy v g.numVertices with hlt | rfl | hgt
    · rw [hold v hlt]
      exact hs.valid.nodup v
    · rw [hnew]
      exact hn.sorted.imp fun hlt => Nat.ne_of_lt hlt
    · rw [hother v hgt]
      exact List.nodup_nil
  · intro u v i hu hv
    rcases hblock u i hu with ⟨_, hiu⟩ | ⟨rfl, hiu⟩ <;> rcases hblock v i hv with ⟨_, hiv⟩ | ⟨rfl, hiv⟩
    · exact hs.valid.disjoint u v i hiu hiv
    · exact absurd (hn.after i ⟨u, hiu⟩ i hiv) (lt_irrefl i)
    · exact absurd (hn.after i ⟨v, hiv⟩ i hiu) (lt_irrefl i)
    · rfl
  · intro v hv
    by_cases hvn : v = g.numVertices
    · obtain ⟨x, hx', _⟩ := path_first hv
      exact hnoout x (hvn ▸ hx')
    · exact hs.valid.acyclic v (hpath_old v v hvn hv)
  · intro v i j hi hj hR
    rcases hblock v i hi with ⟨hlv, hi'⟩ | ⟨rfl, hi'⟩
    · rw [hold v hlv] at hj ⊢
      exact hs.valid.ordered v i j hi' hj hR
    · rw [hnew] at hj ⊢
      exact pair_sublist_of_sorted hn.sorted hi' hj hR.1
  · intro u v i j huv hi hj hR
    rcases hblock u i hi with ⟨hlu, hi'⟩ | ⟨rfl, hi'⟩ <;>
      rcases hblock v j hj with ⟨hlv, hj'⟩ | ⟨rfl, hj'⟩
    · exact TransGen.mono (fun x y he => hx.keptD (x, y) he) u v (hs.valid.path u v i j huv hi' hj' hR)
    · refine hdep u hlu fun h0 => ?_
      rcases BhIrKernel.dependency_cases l k (g.kernel u) with ⟨_, hno⟩ | ⟨h1, _⟩ | ⟨h1, _⟩
      · have hd := hR.2
        rw [hno i hi' j hj'] at hd
        cases hd
      · omega
      · omega
    · exact absurd (hn.after j ⟨v, hj'⟩ i hi') (Nat.lt_asymm hR.1)
    · exact absurd rfl huv
  · intro u v he
    rcases hx.newD _ he with he' | ⟨w, hw, heq, hd⟩
    · obtain ⟨hlu, hlv⟩ := hs.inRange _ he'
      rw [hold u hlu, hold v hlv]
      exact hs.valid.backed u v he'
    · obtain ⟨rfl, rfl⟩ := Prod.mk.inj heq
      rw [hold u hw, hnew]
      rcases BhIrKernel.dependency_cases l k (g.kernel u) with ⟨h0, _⟩ | ⟨_, i, hi, j, hj, hij, hdep⟩ |
        ⟨_, i, hi, j, hj, hij, _⟩
      · exact absurd h0 hd
      · exact ⟨i, hi, j, hj, hn.after i ⟨u, hi⟩ j hj, hdep⟩
      · exact absurd (hn.after j ⟨u, hj⟩ i hi) (Nat.lt_asymm hij)
  · intro v i hi
    rcases hblock v i hi with ⟨_, hi⟩ | ⟨_, hi⟩
    · exact hs.bounded v i hi
    · exact hn.bounded i hi
  · intro e he
    have hlive_old : ∀ v, g.Live v → h.Live v := fun v hv => by
      unfold Live
      rw [hx.kernel_old hv.lt]
      exact hv
    rcases hx.newW e he with he' | ⟨v, hv, rfl, _⟩
    · obtain ⟨hne, hls, hlt⟩ := hs.ends e he'
      exact ⟨hne, hlive_old _ hls, hlive_old _ hlt⟩
    · refine ⟨Nat.ne_of_lt hv, hlive_old v (hlive v hv), ?_⟩
      unfold Live
      rw [hx.kernel_new]
      exact hn.nonempty

/-- A graph in the making: sound, without empty kernels, and every vertex is known for its base
arrays. -/
structure Built (l : List BhInstruction) (g : GraphDW) : Prop where
  sound : g.Sound l
  live : ∀ v < g.numVertices, g.Live v
  known : ∀ v < g.numVertices, ∀ base ∈ basesOf l (g.kernel v),
    ∃ vs, g.base2vertices.lookup base = some vs ∧ v ∈ vs
  bound : ∀ base vs, g.base2vertices.lookup base = some vs → ∀ v ∈ vs, v < g.numVertices

/-- One vertex added. -/
theorem Built.addVertex (model : FuseModel) (hb : Built l g) (hn : Next l g k) :
    Extends model l g k (g.addVertex model l k) ∧ Built l (g.addVertex model l k) := by
  have hbases : BasesKnown l g [] (g.appendVertex k) :=
    ⟨hb.known, by simp, fun base vs hvs v hv => (hb.bound base vs hvs v hv).le⟩
  obtain ⟨hx₀, hknown₀, _, hprog⟩ := (extends_appendVertex model k hb.sound).foldl_connectBase hbases (basesOf l k)
  have hx : Extends model l g k (g.addVertex model l k) := hx₀
  have hknown : BasesKnown l g ([] ++ basesOf l k) (g.addVertex model l k) := hknown₀
  have hnum : (g.addVertex model l k).numVertices = g.numVertices + 1 := by
    change (g.addVertex model l k).kernels.length = _
    rw [hx.kernels, List.length_append, List.length_singleton]
    rfl
  refine ⟨hx, hx.sound hb.sound hb.live hn fun v hv hdep => ?_, fun v hv => ?_, fun v hv base hbase => ?_,
    fun base vs hvs v hv => ?_⟩
  · obtain ⟨base, hk, hv'⟩ := shared_base_of_dependency hdep
    exact hprog base hk v hv hv' hdep
  · unfold Live
    rw [hnum] at hv
    rcases Nat.lt_succ_iff_lt_or_eq.mp hv with hlt | rfl
    · rw [hx.kernel_old hlt]
      exact hb.live v hlt
    · rw [hx.kernel_new]
      exact hn.nonempty
  · rw [hnum] at hv
    rcases Nat.lt_succ_iff_lt_or_eq.mp hv with hlt | rfl
    · rw [hx.kernel_old hlt] at hbase
      exact hknown.old v hlt base hbase
    · rw [hx.kernel_new] at hbase
      exact hknown.new base (by simpa using hbase)
  · rw [hnum]
    exact Nat.lt_succ_of_le (hknown.bound base vs hvs v hv)

theorem Extends.holds (hx : Extends model l g k h) (i : ℕ) :
    h.Holds i ↔ g.Holds i ∨ i ∈ k.instrIndexes := by
  constructor
  · rintro ⟨v, hv⟩
    rcases Nat.lt_trichotomy v g.numVertices with hlt | rfl | hgt
    · exact Or.inl ⟨v, hx.kernel_old hlt ▸ hv⟩
    · exact Or.inr (hx.kernel_new ▸ hv)
    · rw [hx.kernel_other hgt] at hv
      cases hv
  · rintro (⟨v, hv⟩ | hk)
    · have hlt : v < g.numVertices := Live.lt (List.ne_nil_of_mem hv)
      exact ⟨v, (hx.kernel_old hlt).symm ▸ hv⟩
    · exact ⟨g.numVertices, hx.kernel_new.symm ▸ hk⟩

end

/-- An invariant of graphs in the making that one more vertex keeps holds of the whole graph. -/
theorem foldl_addVertex_induction {model : FuseModel} {l : List BhInstruction} (P : GraphDW → Prop)
    (hstep : ∀ g k h, Built l g → Next l g k → Extends model l g k h → Built l h → P g → P h)
    (ks : List BhIrKernel) {g : GraphDW} (hb : Built l g) (hP : P g)
    (hne : ∀ k ∈ ks, k.instrIndexes ≠ [])
    (hsorted : (ks.flatMap BhIrKernel.instrIndexes).Pairwise (· < ·))
    (hafter : ∀ i, g.Holds i → ∀ j ∈ ks.flatMap BhIrKernel.instrIndexes, i < j)
    (hbounded : ∀ j ∈ ks.flatMap BhIrKernel.instrIndexes, j < l.length) :
    Built l (ks.foldl (addVertex model l) g) ∧ P (ks.foldl (addVertex model l) g) ∧
      (ks.foldl (addVertex model l) g).kernels = g.kernels ++ ks ∧
      ∀ i, (ks.foldl (addVertex model l) g).Holds i ↔
        g.Holds i ∨ i ∈ ks.flatMap BhIrKernel.instrIndexes := by
  induction ks generalizing g with
  | nil => exact ⟨hb, hP, by simp, by simp⟩
  | cons k ks ih =>
    rw [List.flatMap_cons] at hsorted hafter hbounded
    obtain ⟨hk, hks, hcross⟩ := List.pairwise_append.mp hsorted
    have hn : Next l g k := ⟨hk, hne k List.mem_cons_self,
      fun i hi j hj => hafter i hi j (List.mem_append_left _ hj),
      fun j hj => hbounded j (List.mem_append_left _ hj)⟩
    obtain ⟨hx, hb'⟩ := hb.addVertex model hn
    have hholds := hx.holds
    have hafter' : ∀ i, (g.addVertex model l k).Holds i →
        ∀ j ∈ ks.flatMap BhIrKernel.instrIndexes, i < j := by
      intro i hi j hj
      rcases (hholds i).mp hi with hi | hi
      · exact hafter i hi j (List.mem_append_right _ hj)
      · exact hcross i hi j hj
    obtain ⟨h1, h2, hkernels, h3⟩ := ih hb' (hstep g k _ hb hn hx hb' hP)
      (fun k' hk' => hne k' (List.mem_cons_of_mem k hk')) hks hafter'
      (fun j hj => hbounded j (List.mem_append_right _ hj))
    refine ⟨h1, h2, ?_, fun i => ?_⟩
    · rw [List.foldl_cons, hkernels, hx.kernels, List.append_assoc, List.singleton_append]
    · rw [List.foldl_cons, h3 i, hholds i, List.flatMap_cons, List.mem_append, or_assoc]

theorem holds_empty (i : ℕ) : ¬ ({} : GraphDW).Holds i := by
  rintro ⟨v, hv⟩
  rw [kernel_of_ge _ (Nat.zero_le v)] at hv
  cases hv

theorem built_empty (l : List BhInstruction) : Built l {} := by
  have hk : ∀ v, ({} : GraphDW).kernel v = {} := fun v => kernel_of_ge _ (Nat.zero_le v)
  have hno : ∀ v i, i ∉ (({} : GraphDW).kernel v).instrIndexes := fun v i hi =>
    holds_empty i ⟨v, hi⟩
  have hsound : ({} : GraphDW).Sound l := by
    refine ⟨⟨?_, ?_, ?_, ?_, ?_, ?_⟩, ?_, ?_, List.Pairwise.nil⟩
    · intro v
      change (({} : GraphDW).kernel v).instrIndexes.Nodup
      rw [hk]
      exact List.nodup_nil
    · intro u v i hi
      exact absurd hi (hno u i)
    · intro v hv
      obtain ⟨x, hx, _⟩ := path_first hv
      cases hx
    · intro v i j hi
      exact absurd hi (hno v i)
    · intro u v i j _ hi
      exact absurd hi (hno u i)
    · intro u v he
      cases he
    · intro v i hi
      exact absurd hi (hno v i)
    · intro e he
      cases he
  exact ⟨hsound, fun v hv => absurd hv (Nat.not_lt_zero v), fun v hv => absurd hv (Nat.not_lt_zero v),
    fun base vs hvs => by rw [List.lookup_nil] at hvs; cases hvs⟩

/-- The graph that `from_bhir` builds is sound, has the runs as kernels and holds every instruction. -/
theorem fromBhir_induction (model : FuseModel) (l : List BhInstruction) (P : GraphDW → Prop) (h0 : P {})
    (hstep : ∀ g k h, Built l g → Next l g k → Extends model l g k h → Built l h → P g → P h) :
    (fromBhir l model).Sound l ∧ P (fromBhir l model) ∧
      (fromBhir l model).kernels = kernelRuns l (gentleAccept l) ∧
      ∀ i, (fromBhir l model).Holds i ↔ i < l.length := by
  obtain ⟨hflat, hne⟩ := kernelRuns_spec l (gentleAccept l)
  obtain ⟨hb, hP, hkernels, hh⟩ := foldl_addVertex_induction P hstep (kernelRuns l (gentleAccept l))
    (built_empty l) h0 hne (by rw [hflat]; exact List.pairwise_lt_range)
    (fun i hi => absurd hi (holds_empty i)) (by rw [hflat]; exact fun j => List.mem_range.mp)
  refine ⟨hb.sound, hP, hkernels, fun i => ?_⟩
  rw [fromBhir, hh i, hflat, List.mem_range]
  exact or_iff_right (holds_empty i)

end GraphDW
end Bohrium
