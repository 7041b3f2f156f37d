import Bohrium.Dag.Merging
import Mathlib.Logic.Function.Iterate

/-! # The branch-and-bound search keeps the schedule legal

A mask of edges to merge collapses the graph along the packed location map. Its result is used only
if the collapsed graph has a topological order, and then it is sound. Whatever the threads do, the
best graph is the greedy one or such a result, and the search ends. -/
namespace Bohrium
open Relation Edges Reorder
set_option autoImplicit false

/-! ## The location map -/

theorem findLoc_eq_iterate (loc : ℕ → ℕ) (fuel v : ℕ) : findLoc fuel loc v = loc^[fuel] v := by
  induction fuel generalizing v with
  | zero => rfl
  | succ fuel ih =>
    rw [findLoc]
    split_ifs with h
    · exact (Function.iterate_fixed h (fuel + 1)).symm
    · rw [ih, Function.iterate_succ_apply]

/-- After `d` steps every vertex is at one that stays. -/
def Settles (loc : ℕ → ℕ) (d : ℕ) : Prop := ∀ v, loc (loc^[d] v) = loc^[d] v

theorem Settles.mono {loc : ℕ → ℕ} {d e : ℕ} (h : Settles loc d) (hde : d ≤ e) (v : ℕ) :
    loc^[e] v = loc^[d] v := by
  obtain ⟨k, rfl⟩ := Nat.exists_eq_add_of_le' hde
  rw [Function.iterate_add_apply]
  exact Function.iterate_fixed (h v) k

/-- One merge recorded: `a` now goes to the vertex `b`, which stays. -/
theorem Settles.update {loc : ℕ → ℕ} {d : ℕ} (h : Settles loc d) (a : ℕ) {b : ℕ}
    (hb : loc b = b) : Settles (Function.update loc a b) (d + 1) := by
  have hb' : Function.update loc a b b = b := by
    by_cases hab : b = a
    · rw [hab, Function.update_self]
    · rw [Function.update_of_ne hab, hb]
  -- a chain either stays away from `a` and is unchanged, or goes through `a` to `b`
  have key : ∀ d v, loc (loc^[d] v) = loc^[d] v →
      Function.update loc a b ((Function.update loc a b)^[d + 1] v) =
        (Function.update loc a b)^[d + 1] v := by
    intro d
    induction d with
    | zero =>
      intro v hv
      rw [Function.iterate_zero_apply] at hv
      rw [Function.iterate_succ_apply, Function.iterate_zero_apply]
      by_cases hva : v = a
      · rw [hva, Function.update_self, hb']
      · rw [Function.update_of_ne hva, hv, Function.update_of_ne hva, hv]
    | succ d ih =>
      intro v hv
      rw [Function.iterate_succ_apply] at hv ⊢
      by_cases hva : v = a
      · rw [hva, Function.update_self, Function.iterate_fixed hb', hb']
      · rw [Function.update_of_ne hva]
        exact ih (loc v) hv
  exact fun v => key d v (h v)

theorem settles_foldl (fuel : ℕ) (es : List EdgeW) (loc : ℕ → ℕ) (d : ℕ) (h : Settles loc d)
    (hf : d + es.length ≤ fuel) :
    Settles (es.foldl (fun loc e => Function.update loc (findLoc fuel loc e.source)
      (findLoc fuel loc e.target)) loc) (d + es.length) := by
  induction es generalizing loc d with
  | nil => exact h
  | cons e es ih =>
    have hroot : ∀ v, loc (findLoc fuel loc v) = findLoc fuel loc v := by
      intro v
      rw [findLoc_eq_iterate, h.mono (by simp at hf; omega)]
      exact h v
    have := ih _ (d + 1) (h.update (findLoc fuel loc e.source) (hroot e.target)) (by simp at hf; omega)
    rw [List.foldl_cons, List.length_cons, show d + (es.length + 1) = d + 1 + es.length by omega]
    exact this

/-- The packed map sends every vertex to one that stays. -/
theorem locMap_idem (es : List EdgeW) (v : ℕ) : locMap es (locMap es v) = locMap es v := by
  unfold locMap
  have hs := settles_foldl es.length es id 0 (fun _ => rfl) (by omega)
  rw [Nat.zero_add] at hs
  revert hs
  generalize es.foldl (fun loc e => Function.update loc (findLoc es.length loc e.source)
    (findLoc es.length loc e.target)) id = loc
  intro hs
  have hfix : ∀ u, findLoc es.length loc (loc u) = loc^[es.length] u := by
    intro u
    rw [findLoc_eq_iterate, ← Function.iterate_succ_apply, hs.mono (Nat.le_succ _)]
  rw [hfix, hfix]
  exact Function.iterate_fixed (hs v) _

theorem locMap_lt {n : ℕ} {es : List EdgeW} (hes : ∀ e ∈ es, e.source < n ∧ e.target < n) {v : ℕ}
    (hv : v < n) : locMap es v < n := by
  have hiter : ∀ (loc : ℕ → ℕ), (∀ u < n, loc u < n) → ∀ fuel u, u < n → findLoc fuel loc u < n := by
    intro loc hloc fuel
    induction fuel with
    | zero => exact fun u hu => hu
    | succ fuel ih =>
      intro u hu
      rw [findLoc]
      split_ifs
      · exact hu
      · exact ih _ (hloc u hu)
  have hfold : ∀ (fs : List EdgeW) (loc : ℕ → ℕ), (∀ e ∈ fs, e.source < n ∧ e.target < n) →
      (∀ u < n, loc u < n) → ∀ u < n, fs.foldl (fun loc e => Function.update loc
        (findLoc es.length loc e.source) (findLoc es.length loc e.target)) loc u < n := by
    intro fs
    induction fs with
    | nil => exact fun loc _ hloc => hloc
    | cons e fs ih =>
      intro loc hfs hloc
      refine ih _ (fun f hf => hfs f (List.mem_cons_of_mem e hf)) fun u hu => ?_
      obtain ⟨_, ht⟩ := hfs e List.mem_cons_self
      dsimp only
      rw [Function.update_apply]
      split_ifs
      · exact hiter loc hloc _ _ ht
      · exact hloc u hu
  have hloc := hfold es id hes fun u hu => hu
  exact hiter _ hloc _ _ (hloc v hv)

/-! ## Relocating the edges -/

section
variable {n : ℕ} {loc : ℕ → ℕ}

theorem mem_relocate {E : List (ℕ × ℕ)} {v : ℕ} (hv : loc v ≠ v) (x y : ℕ) :
    (x, y) ∈ relocate n loc E v ↔ ((x, y) ∈ E ∨
      (∃ a, (a < n ∧ (v, a) ∈ E ∧ loc a ≠ loc v) ∧ x = loc v ∧ y = loc a) ∨
      ∃ a, (a < n ∧ (a, v) ∈ E ∧ loc a ≠ loc v) ∧ x = loc a ∧ y = loc v) ∧ x ≠ v ∧ y ≠ v := by
  unfold relocate
  rw [if_neg hv]
  simp only [List.mem_filter, GraphDW.mem_foldl_setInsert, decide_eq_true_eq, List.mem_range,
    Prod.mk.injEq, or_assoc]

/-- The edges while the vertices before `k` are relocated: their image does not change, and a
relocated vertex has no edge left. -/
structure Relocated (n : ℕ) (loc : ℕ → ℕ) (E₀ : List (ℕ × ℕ)) (k : ℕ) (E : List (ℕ × ℕ)) : Prop where
  inRange : InRange n E
  loopless : ∀ x y, (x, y) ∈ E → x ≠ y
  image : ∀ x y, Image loc (Adj E) x y ↔ Image loc (Adj E₀) x y
  gone : ∀ x y, (x, y) ∈ E → (x < k → loc x = x) ∧ (y < k → loc y = y)

theorem Relocated.step {E₀ E : List (ℕ × ℕ)} {k : ℕ} (h : Relocated n loc E₀ k E)
    (hidem : ∀ v, loc (loc v) = loc v) (hlt : ∀ v < n, loc v < n) (hk : k < n) :
    Relocated n loc E₀ (k + 1) (relocate n loc E k) := by
  by_cases hloc : loc k = k
  · rw [relocate, if_pos hloc]
    refine ⟨h.inRange, h.loopless, h.image, fun x y hxy => ?_⟩
    obtain ⟨hx, hy⟩ := h.gone x y hxy
    refine ⟨fun hxk => ?_, fun hyk => ?_⟩
    · rcases Nat.lt_succ_iff_lt_or_eq.mp hxk with hlt | rfl
      · exact hx hlt
      · exact hloc
    · rcases Nat.lt_succ_iff_lt_or_eq.mp hyk with hlt | rfl
      · exact hy hlt
      · exact hloc
  · -- a vertex that some vertex is mapped to stays itself, so it is not `k`
    have hne : ∀ a, loc a ≠ k := by
      intro a ha
      exact hloc (ha ▸ hidem a)
    refine ⟨?_, ?_, ?_, ?_⟩
    · intro e he
      obtain ⟨he | ⟨a, ⟨ha, _, _⟩, h1, h2⟩ | ⟨a, ⟨ha, _, _⟩, h1, h2⟩, _⟩ := (mem_relocate hloc e.1 e.2).mp he
      · exact h.inRange e he
      · rw [h1, h2]
        exact ⟨hlt k hk, hlt a ha⟩
      · rw [h1, h2]
        exact ⟨hlt a ha, hlt k hk⟩
    · intro x y hxy
      obtain ⟨hxy | ⟨a, ⟨_, _, ha⟩, rfl, rfl⟩ | ⟨a, ⟨_, _, ha⟩, rfl, rfl⟩, _⟩ := (mem_relocate hloc x y).mp hxy
      · exact h.loopless x y hxy
      · exact Ne.symm ha
      · exact ha
    · intro x y
      rw [← h.image]
      constructor
      · rintro ⟨hxy, u, v, huv, rfl, rfl⟩
        refine ⟨hxy, ?_⟩
        obtain ⟨huv | ⟨a, ⟨_, hka, _⟩, rfl, rfl⟩ | ⟨a, ⟨_, hak, _⟩, rfl, rfl⟩, _⟩ :=
          (mem_relocate hloc u v).mp huv
        · exact ⟨u, v, huv, rfl, rfl⟩
        · exact ⟨k, a, hka, (hidem k).symm, (hidem a).symm⟩
        · exact ⟨a, k, hak, (hidem a).symm, (hidem k).symm⟩
      · rintro ⟨hxy, u, v, huv, rfl, rfl⟩
        refine ⟨hxy, ?_⟩
        obtain ⟨hu, hv⟩ := h.inRange _ huv
        by_cases huk : u = k
        · subst huk
          refine ⟨loc u, loc v, (mem_relocate hloc _ _).mpr ⟨Or.inr (Or.inl ⟨v, ⟨hv, huv, hxy.symm⟩,
            rfl, rfl⟩), hne u, hne v⟩, hidem u, hidem v⟩
        · by_cases hvk : v = k
          · subst hvk
            refine ⟨loc u, loc v, (mem_relocate hloc _ _).mpr ⟨Or.inr (Or.inr ⟨u, ⟨hu, huv, hxy⟩,
              rfl, rfl⟩), hne u, hne v⟩, hidem u, hidem v⟩
          · exact ⟨u, v, (mem_relocate hloc u v).mpr ⟨Or.inl huv, huk, hvk⟩, rfl, rfl⟩
    · intro x y hxy
      obtain ⟨hxy | ⟨a, _, rfl, rfl⟩ | ⟨a, _, rfl, rfl⟩, hx, hy⟩ := (mem_relocate hloc x y).mp hxy
      · obtain ⟨hgx, hgy⟩ := h.gone x y hxy
        exact ⟨fun hxk => hgx (by omega), fun hyk => hgy (by omega)⟩
      · exact ⟨fun _ => hidem k, fun _ => hidem a⟩
      · exact ⟨fun _ => hidem a, fun _ => hidem k⟩

theorem relocated_foldl {E : List (ℕ × ℕ)} (hidem : ∀ v, loc (loc v) = loc v)
    (hlt : ∀ v < n, loc v < n) (hin : InRange n E) (hloop : ∀ x y, (x, y) ∈ E → x ≠ y) (k : ℕ)
    (hk : k ≤ n) : Relocated n loc E k ((List.range k).foldl (relocate n loc) E) := by
  induction k with
  | zero => exact ⟨hin, hloop, fun x y => Iff.rfl, fun x y _ => ⟨by simp, by simp⟩⟩
  | succ k ih =>
    rw [List.range_succ, List.foldl_append]
    exact (ih (by omega)).step hidem hlt (by omega)

/-- All vertices relocated: the image of the graph. -/
theorem mem_foldl_relocate {E : List (ℕ × ℕ)} (hidem : ∀ v, loc (loc v) = loc v)
    (hlt : ∀ v < n, loc v < n) (hin : InRange n E) (hloop : ∀ x y, (x, y) ∈ E → x ≠ y) (x y : ℕ) :
    (x, y) ∈ (List.range n).foldl (relocate n loc) E ↔ Image loc (Adj E) x y := by
  have h := relocated_foldl hidem hlt hin hloop n (le_refl n)
  rw [← h.image]
  have hfix : ∀ u v, (u, v) ∈ (List.range n).foldl (relocate n loc) E → loc u = u ∧ loc v = v := by
    intro u v huv
    obtain ⟨hu, hv⟩ := h.inRange _ huv
    obtain ⟨hgu, hgv⟩ := h.gone u v huv
    exact ⟨hgu hu, hgv hv⟩
  constructor
  · intro hxy
    obtain ⟨hx, hy⟩ := hfix x y hxy
    exact ⟨h.loopless x y hxy, x, y, hxy, hx, hy⟩
  · rintro ⟨_, u, v, huv, rfl, rfl⟩
    obtain ⟨hu, hv⟩ := hfix u v huv
    rw [hu, hv]
    exact huv

end

/-! ## One mask -/

namespace GraphDW
variable (boost : Boost) (model : FuseModel) {l : List BhInstruction} {g : GraphDW}

/-- The graph `g'` is `g` with the vertices merged along `loc`: the kernels are written out in a
topological order of `g`, and each passed the test of the fuse model instruction by instruction. -/
structure Collapsed (model : FuseModel) (l : List BhInstruction) (g : GraphDW) (loc : ℕ → ℕ)
    (order : List ℕ) (g' : GraphDW) : Prop where
  perm : order.Perm (List.range g.numVertices)
  topo : ∀ u v, (u, v) ∈ g.edgesD → [u, v].Sublist order
  kernels : ∀ v, (g'.kernel v).instrIndexes =
    (order.filter fun u => loc u == v).flatMap fun u => (g.kernel u).instrIndexes
  edgesD : ∀ u v, (u, v) ∈ g'.edgesD ↔ Image loc (Adj g.edgesD) u v
  edgesW : g'.edgesW = []
  acyclic : Acyclic (Adj g'.edgesD)
  fusible : ∀ v, fusibleOneByOne model l {} (g'.kernel v).instrIndexes = true
  replayed : ∀ v, (g'.kernel v).Replayed l

section
variable {model : FuseModel} {loc : ℕ → ℕ} {order : List ℕ} {g' : GraphDW}

theorem Collapsed.mem_order (h : Collapsed model l g loc order g') {u i : ℕ}
    (hi : i ∈ (g.kernel u).instrIndexes) : u ∈ order :=
  h.perm.mem_iff.mpr (List.mem_range.mpr (Live.lt (List.ne_nil_of_mem hi)))

/-- The instructions of a vertex keep their order in the merged kernel. -/
theorem Collapsed.sublist (h : Collapsed model l g loc order g') {v i : ℕ}
    (hi : i ∈ (g.kernel v).instrIndexes) :
    (g.kernel v).instrIndexes.Sublist (g'.kernel (loc v)).instrIndexes := by
  have hv : v ∈ order.filter fun u => loc u == loc v :=
    List.mem_filter.mpr ⟨h.mem_order hi, beq_self_eq_true _⟩
  have hsub := (List.singleton_sublist.mpr hv).flatMap fun u => (g.kernel u).instrIndexes
  rw [List.flatMap_singleton] at hsub
  rw [h.kernels]
  exact hsub

theorem Collapsed.sound (h : Collapsed model l g loc order g') (hs : g.Sound l) :
    g'.Sound l ∧ ∀ i, g'.Holds i ↔ g.Holds i := by
  have hnd : order.Nodup := h.perm.nodup_iff.mpr List.nodup_range
  have hmem : ∀ w i, i ∈ (g'.kernel w).instrIndexes ↔
      ∃ v, loc v = w ∧ i ∈ (g.kernel v).instrIndexes := by
    intro w i
    rw [h.kernels, List.mem_flatMap]
    constructor
    · rintro ⟨v, hv, hi⟩
      exact ⟨v, by simpa using (List.mem_filter.mp hv).2, hi⟩
    · rintro ⟨v, hv, hi⟩
      exact ⟨v, List.mem_filter.mpr ⟨h.mem_order hi, by simpa using hv⟩, hi⟩
  have hvalid : g'.blocks.Valid (Precedes l) := by
    refine hs.valid.quotient loc g'.blocks h.edgesD hmem ?_ ?_ ?_ h.acyclic
    · intro w
      change (g'.kernel w).instrIndexes.Nodup
      rw [h.kernels, List.nodup_flatMap]
      refine ⟨fun u _ => hs.valid.nodup u, (hnd.filter _).imp fun {u v} huv i hiu hiv => ?_⟩
      exact huv (hs.valid.disjoint u v i hiu hiv)
    · intro v i j hij
      exact hij.trans (h.sublist (hij.subset List.mem_cons_self))
    · intro u v i j huv hloc hi hj hR
      change [i, j].Sublist (g'.kernel (loc u)).instrIndexes
      rw [h.kernels]
      refine hs.valid.order_respects hnd h.topo (fun x => loc x == loc u) hi hj ?_ ?_ hR
      · exact List.mem_filter.mpr ⟨h.mem_order hi, beq_self_eq_true _⟩
      · exact List.mem_filter.mpr ⟨h.mem_order hj, beq_iff_eq.mpr hloc.symm⟩
  refine ⟨⟨hvalid, ?_, by simp [h.edgesW], by simp [h.edgesW]⟩, fun i => ?_⟩
  · intro v i hi
    obtain ⟨u, _, hu⟩ := (hmem v i).mp hi
    exact hs.bounded u i hu
  · constructor
    · rintro ⟨w, hw⟩
      obtain ⟨v, _, hi⟩ := (hmem w i).mp hw
      exact ⟨v, hi⟩
    · rintro ⟨v, hv⟩
      exact ⟨loc v, (hmem _ i).mpr ⟨v, rfl, hv⟩⟩

end

/-- A mask never fails, and the graph of a mask that may be used is the graph collapsed. -/
theorem Sound.fuseMask (hs : g.Sound l) (bestCost : ℤ) {edges2explore : List EdgeW}
    (hes : ∀ e ∈ edges2explore, e.source < g.numVertices ∧ e.target < g.numVertices)
    (mask : List Bool) :
    ∃ r, fuseMask boost model l bestCost edges2explore g mask = some r ∧
      (r.2.1 = true → ∃ loc order, Collapsed model l g loc order r.2.2) := by
  obtain ⟨order, hsort, hperm, htopo⟩ := boost.topologicalSort_acyclic _ _ hs.inRange hs.valid.acyclic
  unfold Bohrium.fuseMask
  rw [hsort, Option.map_some]
  refine ⟨_, rfl, ?_⟩
  have hes' : ∀ e ∈ ((edges2explore.zip mask).filter (·.2)).map (·.1),
      e.source < g.numVertices ∧ e.target < g.numVertices := by
    intro e he
    obtain ⟨p, hp, rfl⟩ := List.mem_map.mp he
    exact hes _ (List.of_mem_zip (List.mem_filter.mp hp).1).1
  have hlt : ∀ v < g.numVertices, _ := fun v hv => locMap_lt hes' hv
  have hidem := locMap_idem (((edges2explore.zip mask).filter (·.2)).map (·.1))
  revert hlt hidem
  generalize locMap (((edges2explore.zip mask).filter (·.2)).map (·.1)) = loc
  intro hlt hidem
  dsimp only
  split_ifs with hcut
  · intro h
    cases h
  intro hsome
  have hedge := mem_foldl_relocate hidem hlt hs.inRange fun x y => hs.edge_ne
  have hin : InRange g.numVertices ((List.range g.numVertices).foldl (relocate g.numVertices loc) g.edgesD) :=
    (relocated_foldl hidem hlt hs.inRange (fun x y => hs.edge_ne) _ (le_refl _)).inRange
  have hgone : ∀ v, loc v ≠ v → (order.reverse.filter fun u => loc u == v) = [] := by
    intro v hv
    refine List.filter_eq_nil_iff.mpr fun u _ hu => hv ?_
    rw [← beq_iff_eq.mp hu, hidem]
  have houtside : ∀ v, ¬ v < g.numVertices → (order.reverse.filter fun u => loc u == v) = [] := by
    intro v hvn
    refine List.filter_eq_nil_iff.mpr fun u hu hloc => hvn ?_
    have hun := List.mem_range.mp (hperm.mem_iff.mp (List.mem_reverse.mp hu))
    exact beq_iff_eq.mp hloc ▸ hlt u hun
  have hkernel : ∀ v, ((List.range g.numVertices).map fun v => if loc v = v then
      ((order.reverse.filter fun u => loc u == v).flatMap fun u =>
        (g.kernel u).instrIndexes).foldl (BhIrKernel.addInstr l) {} else {}).getD v {} =
      ((order.reverse.filter fun u => loc u == v).flatMap fun u =>
        (g.kernel u).instrIndexes).foldl (BhIrKernel.addInstr l) {} := by
    intro v
    by_cases hvn : v < g.numVertices
    · rw [List.getD_eq_getElem _ _ (by simpa using hvn), List.getElem_map, List.getElem_range]
      split_ifs with hv
      · rfl
      · rw [hgone v hv]
        rfl
    · rw [List.getD_eq_default _ _ (by simpa using hvn), houtside v hvn]
      rfl
  have hkernels : ∀ v, (((List.range g.numVertices).map fun v => if loc v = v then
      ((order.reverse.filter fun u => loc u == v).flatMap fun u =>
        (g.kernel u).instrIndexes).foldl (BhIrKernel.addInstr l) {} else {}).getD v {}).instrIndexes =
      (order.reverse.filter fun u => loc u == v).flatMap fun u => (g.kernel u).instrIndexes := by
    intro v
    rw [hkernel v]
    exact BhIrKernel.instrIndexes_foldl_addInstr l _ _
  refine ⟨loc, order.reverse, (List.reverse_perm order).trans hperm, fun u v he => ?_, hkernels, hedge, rfl,
    ?_, fun v => ?_, fun v => ?_⟩
  · simpa using List.reverse_sublist.mpr (htopo u v he)
  · by_contra hcyc
    have hnone := boost.topologicalSort_cyclic _ _ hin hcyc
    dsimp only [numVertices] at hsome hnone
    rw [List.length_map, List.length_range, hnone] at hsome
    cases hsome
  · refine (congrArg (fusibleOneByOne model l {}) (hkernels v)).trans ?_
    by_cases hvn : v < g.numVertices
    · simp only [Bool.or_eq_true, Bool.not_eq_true', not_or, Bool.not_eq_false] at hcut
      exact List.all_eq_true.mp hcut.2 v (List.mem_range.mpr hvn)
    · rw [houtside v hvn]
      rfl
  · refine (congrArg (BhIrKernel.Replayed l) (hkernel v)).mpr ?_
    exact (BhIrKernel.replayed_empty l).foldl _

/-! ## The search -/

section
variable {Q : GraphDW → Prop} {edges2explore : List EdgeW}
  (hes : ∀ e ∈ edges2explore, e.source < g.numVertices ∧ e.target < g.numVertices)
  (hmask : ∀ loc order g', Collapsed model l g loc order g' → Q g')
include hes hmask

/-- The search only ever keeps the graph it started from or a collapsed one. -/
theorem searchStep_keeps (hs : g.Sound l) (race : Race) {s : Search} (hQ : Q s.bestDag) :
    ∃ s', searchStep boost model l edges2explore g race s = some s' ∧ Q s'.bestDag := by
  unfold searchStep
  split
  · exact ⟨s, rfl, hQ⟩
  · rename_i task _
    obtain ⟨r, hr, hcollapsed⟩ := hs.fuseMask boost model (race.bound s.bestCost) hes task.1
    rw [hr, Option.map_some]
    refine ⟨_, rfl, ?_⟩
    split_ifs with hseen huse
    · exact hQ
    · obtain ⟨loc, order, hc⟩ := hcollapsed huse
      exact hmask loc order _ hc
    · exact hQ

theorem searchLoop_keeps (hs : g.Sound l) (race : ℕ → Search → Race) (fuel : ℕ) {s : Search}
    (hQ : Q s.bestDag) :
    ∃ s', searchLoop boost model l edges2explore g race fuel s = some s' ∧ Q s'.bestDag := by
  induction fuel generalizing s with
  | zero => exact ⟨s, rfl, hQ⟩
  | succ fuel ih =>
    rw [searchLoop]
    split_ifs
    · exact ⟨s, rfl, hQ⟩
    · obtain ⟨s', hs', hQ'⟩ := searchStep_keeps boost model hes hmask hs (race fuel s) hQ
      rw [hs', Option.bind_some]
      exact ih hQ'

end

theorem searchFuel_append (ts us : List Task) : searchFuel (ts ++ us) = searchFuel ts + searchFuel us := by
  simp [searchFuel]

/-- The branches of a task take fewer rounds than the task. -/
theorem searchFuel_branches (task : Task) : searchFuel (branches task) < 2 ^ (task.1.length - task.2) := by
  obtain ⟨mask, offset⟩ := task
  have hsum : ∀ n o, o ≤ n → (((List.range n).filter fun i => o ≤ i).map fun i => 2 ^ (n - (i + 1))).sum + 1 =
      2 ^ (n - o) := by
    intro n
    induction n with
    | zero =>
      intro o ho
      simp
    | succ n ih =>
      intro o ho
      rw [List.range_succ, List.filter_append, List.map_append, List.sum_append]
      rcases Nat.lt_succ_iff_lt_or_eq.mp (Nat.lt_succ_of_le ho) with hlt | rfl
      · have hle : o ≤ n := by omega
        have hdouble : (((List.range n).filter fun i => o ≤ i).map fun i => 2 ^ (n + 1 - (i + 1))).sum =
            2 * (((List.range n).filter fun i => o ≤ i).map fun i => 2 ^ (n - (i + 1))).sum := by
          rw [← List.sum_map_mul_left]
          refine congrArg List.sum (List.map_congr_left fun i hi => ?_)
          have hin := List.mem_range.mp (List.mem_filter.mp hi).1
          rw [show n + 1 - (i + 1) = n - (i + 1) + 1 by omega, Nat.pow_succ, Nat.mul_comm]
        have hpow : 2 ^ (n + 1 - o) = 2 * 2 ^ (n - o) := by
          rw [show n + 1 - o = n - o + 1 by omega, Nat.pow_succ, Nat.mul_comm]
        have hlast : (([n].filter fun i => o ≤ i).map fun i => 2 ^ (n + 1 - (i + 1))).sum = 1 := by
          simp [hle]
        have hind := ih o hle
        rw [hdouble, hlast, hpow]
        omega
      · have hnone : ((List.range n).filter fun i => n + 1 ≤ i) = [] := by
          refine List.filter_eq_nil_iff.mpr fun i hi => ?_
          have hin := List.mem_range.mp hi
          rw [decide_eq_true_eq]
          omega
        rw [hnone]
        simp
  have hfuel : searchFuel (branches (mask, offset)) =
      (((List.range mask.length).filter fun i => offset ≤ i).map fun i => 2 ^ (mask.length - (i + 1))).sum := by
    unfold searchFuel branches
    rw [List.map_map, List.map_reverse, List.sum_reverse]
    refine congrArg List.sum (List.map_congr_left fun i _ => ?_)
    simp
  rw [hfuel]
  by_cases ho : offset ≤ mask.length
  · have := hsum mask.length offset ho
    dsimp only
    omega
  · have hnone : ((List.range mask.length).filter fun i => offset ≤ i) = [] := by
      refine List.filter_eq_nil_iff.mpr fun i hi => ?_
      have := List.mem_range.mp hi
      simp
      omega
    rw [hnone]
    simp

theorem searchFuel_step {edges2explore : List EdgeW} (race : Race) {s s' : Search} (hne : s.tasks ≠ [])
    (h : searchStep boost model l edges2explore g race s = some s') :
    searchFuel s'.tasks < searchFuel s.tasks := by
  have hpick : race.pick % s.tasks.length < s.tasks.length :=
    Nat.mod_lt _ (List.length_pos_iff.mpr hne)
  have hsplit : searchFuel s.tasks = 2 ^ ((s.tasks[race.pick % s.tasks.length]).1.length -
      (s.tasks[race.pick % s.tasks.length]).2) + searchFuel (s.tasks.eraseIdx (race.pick % s.tasks.length)) := by
    have hperm := List.getElem_cons_eraseIdx_perm hpick
    have := (hperm.map fun t : Task => 2 ^ (t.1.length - t.2)).sum_eq
    rw [List.map_cons, List.sum_cons] at this
    exact this.symm
  unfold searchStep at h
  rw [List.getElem?_eq_getElem hpick] at h
  simp only [Option.map_eq_some_iff] at h
  obtain ⟨r, _, rfl⟩ := h
  have hpos : 0 < 2 ^ ((s.tasks[race.pick % s.tasks.length]).1.length -
      (s.tasks[race.pick % s.tasks.length]).2) := Nat.two_pow_pos _
  have hbranch := searchFuel_branches (s.tasks[race.pick % s.tasks.length])
  split_ifs
  · dsimp only
    omega
  · dsimp only
    omega
  · dsimp only
    rw [searchFuel_append]
    omega

/-- The rounds given to the search are enough: it ends without tasks. -/
theorem searchLoop_tasks {edges2explore : List EdgeW} (race : ℕ → Search → Race) (fuel : ℕ)
    {s s' : Search} (hf : searchFuel s.tasks ≤ fuel)
    (h : searchLoop boost model l edges2explore g race fuel s = some s') : s'.tasks = [] := by
  induction fuel generalizing s with
  | zero =>
    obtain rfl : s = s' := by simpa [searchLoop] using h
    by_contra hne
    obtain ⟨t, ts, hts⟩ := List.exists_cons_of_ne_nil hne
    have hpos : 0 < 2 ^ (t.1.length - t.2) := Nat.two_pow_pos _
    rw [hts, searchFuel, List.map_cons, List.sum_cons] at hf
    omega
  | succ fuel ih =>
    rw [searchLoop] at h
    split_ifs at h with hne
    · obtain rfl := Option.some.inj h
      exact hne
    · obtain ⟨s₁, hs₁, h⟩ := Option.bind_eq_some_iff.mp h
      have hlt := searchFuel_step boost model (race fuel s) hne hs₁
      exact ih (by omega) h

theorem mem_edgesToExplore {order : ExploreOrder} {e : EdgeW} (he : e ∈ edgesToExplore order g) :
    e ∈ g.edgesW := by
  have hsorted := List.perm_insertionSort (fun a b : EdgeW => b.value ≤ a.value) g.edgesW
  cases order with
  | regular => exact hsorted.mem_iff.mp he
  | reverse => exact hsorted.mem_iff.mp (List.mem_reverse.mp he)
  | random shuffle perm => exact hsorted.mem_iff.mp ((perm _).mem_iff.mp he)

/-- The optimal fuser returns its graph, or the greedy or a collapsed one without the weight edges. -/
theorem fuseOptimal_keeps {Q : GraphDW → Prop} (hs : g.Sound l) (env : OptimalEnv) (h0 : Q g)
    (hgreedy : Q (g.fuseGreedy model l))
    (hmask : ∀ loc order g', Collapsed model l g loc order g' → Q g')
    (hdrop : ∀ g', Q g' → Q { kernels := g'.kernels, edgesD := g'.edgesD, numW := g'.numVertices }) :
    ∃ g', fuseOptimal boost model l env g = some g' ∧ Q g' := by
  have hes : ∀ e ∈ edgesToExplore env.order g, e.source < g.numVertices ∧ e.target < g.numVertices := by
    intro e he
    obtain ⟨_, h1, h2⟩ := hs.ends e (mem_edgesToExplore he)
    exact ⟨h1.lt, h2.lt⟩
  unfold fuseOptimal
  by_cases hn : (edgesToExplore env.order g).length = 0
  · exact ⟨g, if_pos hn, h0⟩
  · dsimp only
    rw [if_neg hn]
    generalize (if 10 < (edgesToExplore env.order g).length then
      env.preload.take (edgesToExplore env.order g).length else []) = preload
    obtain ⟨s, hloop, hQ⟩ := searchLoop_keeps boost model hes hmask hs env.race
      (searchFuel [(preload ++ List.replicate ((edgesToExplore env.order g).length - preload.length) true,
        preload.length - 1)])
      (s := ⟨[(preload ++ List.replicate ((edgesToExplore env.order g).length - preload.length) true,
        preload.length - 1)], dagCost (g.fuseGreedy model l), g.fuseGreedy model l⟩) hgreedy
    exact ⟨_, congrArg (Option.map _) hloop, hdrop _ hQ⟩

theorem Sound.fuseOptimal (hs : g.Sound l) (env : OptimalEnv) :
    ∃ g', fuseOptimal boost model l env g = some g' ∧ g'.Sound l ∧ ∀ i, g'.Holds i ↔ g.Holds i :=
  fuseOptimal_keeps boost model (Q := fun g' => g'.Sound l ∧ ∀ i, g'.Holds i ↔ g.Holds i) hs env
    ⟨hs, fun i => Iff.rfl⟩ (hs.fuseGreedy model) (fun _ _ _ hc => hc.sound hs)
    fun _ hg' => ⟨⟨hg'.1.valid, hg'.1.bounded, by simp, by simp⟩, hg'.2⟩

end GraphDW
end Bohrium
