import Bohrium.Dag.Schedule
import Bohrium.Dag.Weights
import Bohrium.Library.Rounds
import Mathlib.Data.Finset.Prod

/-! # Gentle and greedy fusion come to an end

Every round of `fuse_gently` takes a vertex out of its set. A round of `fuse_greedy` removes a weight
edge, or it merges two vertices, and one of them loses its edges for good: so the vertices with edges
become fewer, and between two merges the weight edges do. When no weight edge is left, there is no
dependency edge between fusible kernels either. -/
namespace Bohrium
open Relation Edges StateTransition
set_option autoImplicit false
namespace GraphDW

/-- What the types of `GraphDW` and its methods guarantee: the edges join vertices that are there, no
weight edge is a loop or beside another one, and the kernels hold instructions of the list. -/
structure Formed (l : List BhInstruction) (g : GraphDW) : Prop where
  bounded : Bounded l g
  inRange : InRange g.numVertices g.edgesD
  ends : ∀ e ∈ g.edgesW, e.source ≠ e.target ∧ e.source < g.numVertices ∧ e.target < g.numVertices
  simple : g.edgesW.Pairwise fun e f => f.joins e.source e.target = false

/-- No dependency path of length greater than one connects the two vertices. -/
def Adjoining (g : GraphDW) (u v : ℕ) : Prop :=
  ¬ Detour (Adj g.edgesD) u v ∧ ¬ Detour (Adj g.edgesD) v u

/-! ## Rounds -/

section
variable (model : FuseModel) (l : List BhInstruction)

/-- The vertex that a round of `fuse_gently` finds, its neighbour, and whether the neighbour comes first. -/
def gentlePick (s : List ℕ × GraphDW) : Option (ℕ × ℕ × Bool) :=
  s.1.findSome? fun v => (s.2.singleEnding v).map fun p => (v, p.1, p.2)

/-- One round of `fuse_gently`, on the set `vs` and the graph. -/
def gentleRound (s : List ℕ × GraphDW) : Option (List ℕ × GraphDW) :=
  (gentlePick s).map fun p => (s.1.erase p.1,
    if (s.2.kernel p.1).fusibleKernel model l (s.2.kernel p.2.1) then s.2.mergeVertices model l p.2.1 p.1 p.2.2 else s.2)

/-- The merge of a round of `fuse_gently`: the vertex that survives and the cleared one. -/
def gentleMerge (s : List ℕ × GraphDW) : Option (ℕ × ℕ) :=
  (gentlePick s).bind fun p =>
    if (s.2.kernel p.1).fusibleKernel model l (s.2.kernel p.2.1) then some (p.2.1, p.1) else none

/-- The weight edge that a round of `fuse_greedy` finds. -/
def greedyPick (g : GraphDW) : Option EdgeW :=
  match g.edgesW with
  | [] => none
  | e :: es => some (greatest e es)

/-- One round of `fuse_greedy`. -/
def greedyRound (g : GraphDW) : Option GraphDW :=
  (greedyPick g).map fun e => g.greedyStep model l e.source e.target

/-- The merge of a round of `fuse_greedy`. -/
def greedyMerge (g : GraphDW) : Option (ℕ × ℕ) :=
  (greedyPick g).bind fun e =>
    if pathExist e.source e.target g.edgesD true || pathExist e.target e.source g.edgesD true then none
    else if (g.kernel e.source).dependency l (g.kernel e.target) = 1 then some (e.target, e.source)
    else some (e.source, e.target)

theorem greedyPick_mem {g : GraphDW} {e : EdgeW} (h : greedyPick g = some e) : e ∈ g.edgesW := by
  unfold greedyPick at h
  cases hW : g.edgesW with
  | nil =>
    rw [hW] at h
    cases h
  | cons f es =>
    rw [hW] at h
    obtain rfl := Option.some.inj h
    exact greatest_mem f es

theorem gentleRound_merge {s t : List ℕ × GraphDW} (h : gentleRound model l s = some t) :
    match gentleMerge model l s with
    | none => t.2 = s.2
    | some (a, b) => ∃ aBeforeB, t.2 = s.2.mergeVertices model l a b aBeforeB := by
  obtain ⟨⟨v, w, wBeforeV⟩, hpick, rfl⟩ := Option.map_eq_some_iff.mp h
  unfold gentleMerge
  rw [hpick, Option.bind_some]
  by_cases hf : (s.2.kernel v).fusibleKernel model l (s.2.kernel w) = true
  · simp only [hf, if_true]
    exact ⟨wBeforeV, rfl⟩
  · simp only [hf, if_false, Bool.false_eq_true]

theorem greedyRound_merge {g t : GraphDW} (h : greedyRound model l g = some t) :
    match greedyMerge l g with
    | none => ∃ e ∈ g.edgesW, t = g.removeEdges e.source e.target
    | some (a, b) => t = g.mergeVertices model l a b true := by
  obtain ⟨e, hpick, rfl⟩ := Option.map_eq_some_iff.mp h
  unfold greedyMerge greedyStep
  rw [hpick, Option.bind_some]
  by_cases hlong : (pathExist e.source e.target g.edgesD true || pathExist e.target e.source g.edgesD true) = true
  · simp only [hlong, if_true]
    exact ⟨e, greedyPick_mem hpick, rfl⟩
  · by_cases hdep : (g.kernel e.source).dependency l (g.kernel e.target) = 1
    · simp only [hlong, hdep, if_true, if_false, Bool.false_eq_true]
    · simp only [hlong, hdep, if_false, Bool.false_eq_true]

theorem fuseGentlyLoop_eq_fueled (fuel : ℕ) (vs : List ℕ) (g : GraphDW) :
    fuseGentlyLoop model l fuel vs g = (Rounds.fueled (gentleRound model l) fuel (vs, g)).2 := by
  induction fuel generalizing vs g with
  | zero => rfl
  | succ fuel ih =>
    rw [fuseGentlyLoop, Rounds.fueled, gentleRound, gentlePick]
    cases vs.findSome? fun v => (g.singleEnding v).map fun p => (v, p.1, p.2) with
    | none => rfl
    | some p => exact ih _ _

theorem fuseGreedyLoop_eq_fueled (fuel : ℕ) (g : GraphDW) :
    fuseGreedyLoop model l fuel g = Rounds.fueled (greedyRound model l) fuel g := by
  induction fuel generalizing g with
  | zero => rfl
  | succ fuel ih =>
    rw [fuseGreedyLoop, Rounds.fueled, greedyRound, greedyPick]
    cases g.edgesW with
    | nil => rfl
    | cons e es => exact ih _

end

variable {model : FuseModel} {l : List BhInstruction} {g : GraphDW}

theorem greedyPick_eq_none (h : greedyPick g = none) : g.edgesW = [] := by
  unfold greedyPick at h
  cases hW : g.edgesW with
  | nil => rfl
  | cons f es =>
    rw [hW] at h
    cases h

theorem gentlePick_spec {s : List ℕ × GraphDW} {v w : ℕ} {wBeforeV : Bool} (h : gentlePick s = some (v, w, wBeforeV)) :
    v ∈ s.1 ∧ s.2.singleEnding v = some (w, wBeforeV) := by
  obtain ⟨v', hv', h⟩ := List.exists_of_findSome?_eq_some h
  obtain ⟨p, hp, heq⟩ := Option.map_eq_some_iff.mp h
  obtain ⟨rfl, hw⟩ := Prod.mk.inj heq
  exact ⟨hv', hp.trans (congrArg some hw)⟩

/-! ## What a round keeps -/

/-- The invariant of both loops. -/
structure Acyclical (l : List BhInstruction) (g : GraphDW) : Prop extends Formed l g where
  acyclic : Acyclic (Adj g.edgesD)

theorem Acyclical.loopless (h : Acyclical l g) (u v : ℕ) (he : (u, v) ∈ g.edgesD) : u ≠ v := by
  rintro rfl
  exact h.acyclic u (TransGen.single he)

theorem Acyclical.detour_iff (h : Acyclical l g) (u v : ℕ) :
    pathExist u v g.edgesD true = true ↔ Detour (Adj g.edgesD) u v := by
  rw [pathExist_long_iff]
  constructor
  · rintro ⟨x, hxu, hux, hxv⟩
    exact ⟨x, path_of_refl hux hxu.symm, TransGen.single hxv⟩
  · rintro ⟨x, hux, hxv⟩
    obtain ⟨y, hxy, hyv⟩ := path_last hxv
    refine ⟨y, ?_, hux.to_reflTransGen.trans hxy, hyv⟩
    rintro rfl
    exact h.acyclic y (hux.trans_left hxy)

section Merge
variable {a b : ℕ} {aBeforeB : Bool}

theorem Acyclical.mergeVertices (h : Acyclical l g) (hp : Pair g a b) (hadj : Adjoining g a b) :
    Acyclical l (g.mergeVertices model l a b aBeforeB) where
  bounded := h.bounded.mergeVertices hp
  inRange e he := by
    obtain ⟨_, x, y, hxy, hx, hy⟩ := (mem_edgesD_mergeVertices model aBeforeB hp.inRange hp.loopless hp.ne e.1 e.2).mp he
    have hlt : ∀ z, z < g.numVertices → contract a b z < g.numVertices := by
      intro z hz
      unfold contract
      split_ifs
      · exact hp.left
      · exact hz
    rw [numVertices_mergeVertices, ← hx, ← hy]
    exact ⟨hlt x (hp.inRange _ hxy).1, hlt y (hp.inRange _ hxy).2⟩
  ends e he := by
    have hends : ∀ e ∈ g.edgesW, e.source ≠ e.target := fun e he => (h.ends e he).1
    rw [numVertices_mergeVertices]
    rcases mem_edgesW_mergeVertices model aBeforeB hends he with ⟨hold, _⟩ | ⟨v, hva, _, hj, hneighbour, _⟩
    · exact h.ends e hold
    · have hv : v < g.numVertices := by
        have hjoined : ∀ {u}, Joined g.edgesW u v → v < g.numVertices := by
          rintro u ⟨f, hf, hfj⟩
          obtain ⟨_, hs, ht⟩ := h.ends f hf
          rcases joins_iff.mp hfj with ⟨_, rfl⟩ | ⟨rfl, _⟩ <;> assumption
        rcases hneighbour with hj | hj | he | he
        · exact hjoined hj
        · exact hjoined hj
        · exact (hp.inRange _ he).2
        · exact (hp.inRange _ he).1
      rcases joins_iff.mp hj with ⟨hs, ht⟩ | ⟨hs, ht⟩ <;> rw [hs, ht]
      · exact ⟨hva.symm, hp.left, hv⟩
      · exact ⟨hva, hv, hp.left⟩
  simple := simple_mergeVertices model aBeforeB h.simple
  acyclic := by
    have hac := @acyclic_contract ℕ _ (Adj g.edgesD) a b h.acyclic hp.ne
      (fun x _ _ hax hxb => hadj.1 ⟨x, hax, hxb⟩) fun x _ _ hbx hxa => hadj.2 ⟨x, hbx, hxa⟩
    exact hac.mono fun u v => (mem_edgesD_mergeVertices model aBeforeB hp.inRange hp.loopless hp.ne u v).mp

end Merge

theorem Acyclical.removeEdges (h : Acyclical l g) (v1 v2 : ℕ) : Acyclical l (g.removeEdges v1 v2) where
  bounded := h.bounded
  inRange e he := h.inRange e (List.mem_filter.mp he).1
  ends e he := h.ends e (List.mem_filter.mp he).1
  simple := h.simple.filter _
  acyclic := h.acyclic.mono fun _ _ he => (List.mem_filter.mp he).1

/-- What `fuse_gently` finds can be merged. -/
theorem Acyclical.singleEnding (h : Acyclical l g) {v w : ℕ} {wBeforeV : Bool}
    (hse : g.singleEnding v = some (w, wBeforeV)) : Pair g w v ∧ Adjoining g w v := by
  have hmemOut : ∀ {u x}, x ∈ g.outNeighbours u ↔ (u, x) ∈ g.edgesD := by
    intro u x
    simp only [outNeighbours, List.mem_filter, List.mem_range, decide_eq_true_eq]
    exact ⟨And.right, fun he => ⟨(h.inRange _ he).2, he⟩⟩
  have hmemIn : ∀ {u x}, x ∈ g.inNeighbours u ↔ (x, u) ∈ g.edgesD := by
    intro u x
    simp only [inNeighbours, List.mem_filter, List.mem_range, decide_eq_true_eq]
    exact ⟨And.right, fun he => ⟨(h.inRange _ he).1, he⟩⟩
  rcases singleEnding_cases hse with ⟨_, hin, hout⟩ | ⟨_, hin, hout⟩
  · -- `v` starts at nothing and ends at `w` only
    have hvw : (v, w) ∈ g.edgesD := hmemOut.mp (by simp [hout])
    refine ⟨⟨h.inRange, h.loopless, (h.loopless v w hvw).symm, (h.inRange _ hvw).2, (h.inRange _ hvw).1⟩, ?_, ?_⟩
    · rintro ⟨x, _, hxv⟩
      obtain ⟨y, _, hyv⟩ := path_last hxv
      simpa [hin] using hmemIn.mpr hyv
    · rintro ⟨x, hvx, hxw⟩
      obtain ⟨y, hvy, hyx⟩ := path_first hvx
      obtain rfl : y = w := by simpa [hout] using hmemOut.mpr hvy
      exact h.acyclic y (TransGen.trans_right hyx hxw)
  · have hwv : (w, v) ∈ g.edgesD := hmemIn.mp (by simp [hin])
    refine ⟨⟨h.inRange, h.loopless, h.loopless w v hwv, (h.inRange _ hwv).1, (h.inRange _ hwv).2⟩, ?_, ?_⟩
    · rintro ⟨x, hwx, hxv⟩
      obtain ⟨y, hxy, hyv⟩ := path_last hxv
      obtain rfl : y = w := by simpa [hin] using hmemIn.mpr hyv
      exact h.acyclic y (TransGen.trans_left hwx hxy)
    · rintro ⟨x, hvx, _⟩
      obtain ⟨y, hvy, _⟩ := path_first hvx
      simpa [hout] using hmemOut.mpr hvy

/-- Vertices that `path_exist` does not find apart adjoin. -/
theorem Acyclical.adjoining (h : Acyclical l g) {u v : ℕ}
    (hno : (pathExist u v g.edgesD true || pathExist v u g.edgesD true) = false) : Adjoining g u v := by
  rw [Bool.or_eq_false_iff, Bool.eq_false_iff, Bool.eq_false_iff, Ne, Ne, h.detour_iff, h.detour_iff] at hno
  exact hno

theorem Acyclical.pair (h : Acyclical l g) {e : EdgeW} (he : e ∈ g.edgesW) :
    Pair g e.source e.target ∧ Pair g e.target e.source := by
  obtain ⟨hne, hs, ht⟩ := h.ends e he
  exact ⟨⟨h.inRange, h.loopless, hne, hs, ht⟩, ⟨h.inRange, h.loopless, hne.symm, ht, hs⟩⟩

/-- A round of `fuse_greedy` removes a weight edge with its dependency edges, or merges two vertices. -/
theorem Acyclical.greedyStep_cases (h : Acyclical l g) {e : EdgeW} (he : e ∈ g.edgesW) :
    g.greedyStep model l e.source e.target = g.removeEdges e.source e.target ∨
      ∃ a b, Pair g a b ∧ Adjoining g a b ∧ e.joins a b = true ∧
        g.greedyStep model l e.source e.target = g.mergeVertices model l a b true := by
  obtain ⟨hp, hp'⟩ := h.pair he
  unfold greedyStep
  split_ifs with hlong hdep
  · exact Or.inl rfl
  · have hadj := h.adjoining (Bool.not_eq_true _ ▸ hlong)
    exact Or.inr ⟨e.target, e.source, hp', hadj.symm, joins_comm e _ _ ▸ joins_self e, rfl⟩
  · exact Or.inr ⟨e.source, e.target, hp, h.adjoining (Bool.not_eq_true _ ▸ hlong), joins_self e, rfl⟩

theorem Acyclical.of_gentleMerge {s : List ℕ × GraphDW} (h : Acyclical l s.2) {a b : ℕ}
    (hm : gentleMerge model l s = some (a, b)) : Pair s.2 a b ∧ Adjoining s.2 a b := by
  obtain ⟨⟨v, w, wBeforeV⟩, hpick, hm⟩ := Option.bind_eq_some_iff.mp hm
  dsimp only at hm
  split_ifs at hm
  obtain ⟨rfl, rfl⟩ := Prod.mk.inj (Option.some.inj hm)
  exact h.singleEnding (gentlePick_spec hpick).2

theorem Acyclical.of_greedyMerge (h : Acyclical l g) {a b : ℕ} (hm : greedyMerge l g = some (a, b)) :
    Pair g a b ∧ Adjoining g a b := by
  obtain ⟨e, hpick, hm⟩ := Option.bind_eq_some_iff.mp hm
  obtain ⟨hp, hp'⟩ := h.pair (greedyPick_mem hpick)
  split_ifs at hm with hlong hdep
  · obtain ⟨rfl, rfl⟩ := Prod.mk.inj (Option.some.inj hm)
    exact ⟨hp', (h.adjoining (Bool.not_eq_true _ ▸ hlong)).symm⟩
  · obtain ⟨rfl, rfl⟩ := Prod.mk.inj (Option.some.inj hm)
    exact ⟨hp, h.adjoining (Bool.not_eq_true _ ▸ hlong)⟩

theorem Acyclical.of_gentleRound {s t : List ℕ × GraphDW} (h : Acyclical l s.2) (hround : gentleRound model l s = some t) :
    Acyclical l t.2 ∧ t.1.length < s.1.length := by
  constructor
  · have hmerge := gentleRound_merge model l hround
    cases hm : gentleMerge model l s with
    | none =>
      rw [hm] at hmerge
      rw [hmerge]
      exact h
    | some p =>
      rw [hm] at hmerge
      obtain ⟨wBeforeV, heq⟩ := hmerge
      obtain ⟨hp, hadj⟩ := h.of_gentleMerge hm
      rw [heq]
      exact h.mergeVertices hp hadj
  · obtain ⟨⟨v, w, wBeforeV⟩, hpick, rfl⟩ := Option.map_eq_some_iff.mp hround
    have hv := (gentlePick_spec hpick).1
    have hpos := List.length_pos_of_mem hv
    have hlen := List.length_erase_of_mem hv
    dsimp only
    omega

theorem Acyclical.of_greedyRound {g' : GraphDW} (h : Acyclical l g) (hround : greedyRound model l g = some g') :
    Acyclical l g' := by
  have hmerge := greedyRound_merge model l hround
  cases hm : greedyMerge l g with
  | none =>
    rw [hm] at hmerge
    obtain ⟨e, -, rfl⟩ := hmerge
    exact h.removeEdges _ _
  | some p =>
    rw [hm] at hmerge
    obtain ⟨hp, hadj⟩ := h.of_greedyMerge hm
    rw [hmerge]
    exact h.mergeVertices hp hadj

/-! ## The measure of greedy fusion -/

/-- The vertices with an edge. -/
def touched (g : GraphDW) : List ℕ := (List.range g.numVertices).filter fun v =>
  (g.edgesD.any fun e => e.1 == v || e.2 == v) || g.edgesW.any fun e => e.source == v || e.target == v

theorem mem_touched {v : ℕ} : v ∈ touched g ↔ v < g.numVertices ∧
    ((∃ u, (v, u) ∈ g.edgesD ∨ (u, v) ∈ g.edgesD) ∨ ∃ u, Joined g.edgesW v u) := by
  rw [touched, List.mem_filter, List.mem_range]
  refine and_congr_right fun _ => ?_
  rw [Bool.or_eq_true, List.any_eq_true, List.any_eq_true]
  refine or_congr ⟨?_, ?_⟩ ⟨?_, ?_⟩
  · rintro ⟨⟨x, y⟩, he, hv⟩
    rw [Bool.or_eq_true, beq_iff_eq, beq_iff_eq] at hv
    rcases hv with rfl | rfl
    · exact ⟨y, Or.inl he⟩
    · exact ⟨x, Or.inr he⟩
  · rintro ⟨u, he | he⟩
    · exact ⟨_, he, by simp⟩
    · exact ⟨_, he, by simp⟩
  · rintro ⟨e, he, hv⟩
    rw [Bool.or_eq_true, beq_iff_eq, beq_iff_eq] at hv
    rcases hv with rfl | rfl
    · exact ⟨e.target, e, he, joins_self e⟩
    · exact ⟨e.source, e, he, joins_iff.mpr (Or.inr ⟨rfl, rfl⟩)⟩
  · rintro ⟨u, e, he, hj⟩
    refine ⟨e, he, ?_⟩
    rcases joins_iff.mp hj with ⟨rfl, _⟩ | ⟨_, rfl⟩ <;> simp

theorem Formed.length_edgesW_le (h : Formed l g) : g.edgesW.length ≤ g.numVertices * g.numVertices := by
  let ends : EdgeW → ℕ × ℕ := fun e => (e.source, e.target)
  have hnd : (g.edgesW.map ends).Nodup := by
    refine List.pairwise_map.mpr (h.simple.imp fun {e f} hef heq => ?_)
    obtain ⟨hs, ht⟩ := Prod.mk.inj heq
    rw [joins_iff.mpr (Or.inl ⟨hs.symm, ht.symm⟩)] at hef
    cases hef
  have hsub : (g.edgesW.map ends).toFinset ⊆ Finset.range g.numVertices ×ˢ Finset.range g.numVertices := by
    intro p hp
    obtain ⟨e, he, rfl⟩ := List.mem_map.mp (List.mem_toFinset.mp hp)
    obtain ⟨_, hs, ht⟩ := h.ends e he
    exact Finset.mem_product.mpr ⟨Finset.mem_range.mpr hs, Finset.mem_range.mpr ht⟩
  have hcard := Finset.card_le_card hsub
  rwa [List.toFinset_card_of_nodup hnd, List.length_map, Finset.card_product, Finset.card_range] at hcard

/-- A merge takes all edges from the cleared vertex and gives edges to no vertex without one. -/
theorem Acyclical.length_touched (h : Acyclical l g) {a b : ℕ} (hp : Pair g a b) (hab : Joined g.edgesW a b) :
    (touched (g.mergeVertices model l a b true)).length < (touched g).length := by
  have ha : a ∈ touched g := mem_touched.mpr ⟨hp.left, Or.inr ⟨b, hab⟩⟩
  have hb : b ∈ touched g := mem_touched.mpr ⟨hp.right, Or.inr ⟨a, joined_comm.mp hab⟩⟩
  have hends : ∀ e ∈ g.edgesW, e.source ≠ e.target := fun e he => (h.ends e he).1
  have hedge := mem_edgesD_mergeVertices (l := l) model true hp.inRange hp.loopless hp.ne
  have hjoined : ∀ {u v}, Joined g.edgesW u v → v ∈ touched g := by
    intro u v hj
    obtain ⟨f, hf, hfj⟩ := hj
    obtain ⟨_, hs, ht⟩ := h.ends f hf
    refine mem_touched.mpr ⟨?_, Or.inr ⟨u, f, hf, joins_comm f u v ▸ hfj⟩⟩
    rcases joins_iff.mp hfj with ⟨_, rfl⟩ | ⟨rfl, _⟩ <;> assumption
  have hadj : ∀ {u v}, (u, v) ∈ g.edgesD → u ∈ touched g ∧ v ∈ touched g := fun he =>
    ⟨mem_touched.mpr ⟨(h.inRange _ he).1, Or.inl ⟨_, Or.inl he⟩⟩, mem_touched.mpr ⟨(h.inRange _ he).2, Or.inl ⟨_, Or.inr he⟩⟩⟩
  -- who has an edge after the merge had one before, and is not `b`
  have hkeep : ∀ v ∈ touched (g.mergeVertices model l a b true), v ∈ touched g ∧ v ≠ b := by
    have hcontract : ∀ x, x ∈ touched g → contract a b x ∈ touched g ∧ contract a b x ≠ b := by
      intro x hx
      unfold contract
      split_ifs with hxb
      · exact ⟨ha, hp.ne⟩
      · exact ⟨hx, hxb⟩
    intro v hv
    obtain ⟨_, ⟨u, he | he⟩ | ⟨u, e, he, hj⟩⟩ := mem_touched.mp hv
    · obtain ⟨_, x, y, hxy, rfl, _⟩ := (hedge v u).mp he
      exact hcontract x (hadj hxy).1
    · obtain ⟨_, x, y, hxy, _, rfl⟩ := (hedge u v).mp he
      exact hcontract y (hadj hxy).2
    · rcases mem_edgesW_mergeVertices model true hends he with ⟨hold, hsa, hta, hsb, htb⟩ |
        ⟨w, hwa, hwb, hjw, hneighbour, _⟩
      · refine ⟨mem_touched.mpr ⟨?_, Or.inr ⟨u, e, hold, hj⟩⟩, ?_⟩
        · obtain ⟨_, hs, ht⟩ := h.ends e hold
          rcases joins_iff.mp hj with ⟨rfl, _⟩ | ⟨_, rfl⟩ <;> assumption
        · rcases joins_iff.mp hj with ⟨rfl, _⟩ | ⟨_, rfl⟩ <;> assumption
      · have hw : w ∈ touched g := by
          rcases hneighbour with hn | hn | hn | hn
          · exact hjoined hn
          · exact hjoined hn
          · exact (hadj hn).2
          · exact (hadj hn).1
        have hva : v = a ∨ v = w := by
          rcases joins_iff.mp hj with ⟨h1, _⟩ | ⟨_, h1⟩ <;> rcases joins_iff.mp hjw with ⟨h2, h3⟩ | ⟨h2, h3⟩ <;> omega
        rcases hva with rfl | rfl
        · exact ⟨ha, hp.ne⟩
        · exact ⟨hw, hwb⟩
  have hnodup : ∀ g : GraphDW, (touched g).Nodup := fun g => List.nodup_range.filter _
  have hsub : (touched (g.mergeVertices model l a b true)).toFinset ⊂ (touched g).toFinset := by
    refine ⟨fun v hv => ?_, fun hcon => ?_⟩
    · exact List.mem_toFinset.mpr (hkeep v (List.mem_toFinset.mp hv)).1
    · exact (hkeep b (List.mem_toFinset.mp (hcon (List.mem_toFinset.mpr hb)))).2 rfl
  have hcard := Finset.card_lt_card hsub
  rwa [List.toFinset_card_of_nodup (hnodup _), List.toFinset_card_of_nodup (hnodup _)] at hcard

/-- The rounds still to come. -/
def greedyMeasure (g : GraphDW) : ℕ := (touched g).length * (g.numVertices * g.numVertices + 1) + g.edgesW.length

theorem Acyclical.greedyMeasure_lt {g' : GraphDW} (h : Acyclical l g) (hround : greedyRound model l g = some g') :
    greedyMeasure g' < greedyMeasure g := by
  have hW := (h.of_greedyRound hround).length_edgesW_le
  obtain ⟨e, hpick, rfl⟩ := Option.map_eq_some_iff.mp hround
  have he := greedyPick_mem hpick
  rcases h.greedyStep_cases he with heq | ⟨a, b, hp, hadj, hj, heq⟩ <;> rw [heq] at hW ⊢
  · have hlt : (g.removeEdges e.source e.target).edgesW.length < g.edgesW.length :=
      List.length_filter_lt_length_iff_exists.mpr ⟨e, he, by simp [joins_self]⟩
    have htouched : (touched (g.removeEdges e.source e.target)).length ≤ (touched g).length := by
      refine (List.monotone_filter_right _ fun v hv => ?_).length_le
      rw [Bool.or_eq_true, List.any_eq_true, List.any_eq_true] at hv ⊢
      refine hv.imp ?_ ?_
      · rintro ⟨x, hx, hxv⟩
        exact ⟨x, (List.mem_filter.mp hx).1, hxv⟩
      · rintro ⟨x, hx, hxv⟩
        exact ⟨x, (List.mem_filter.mp hx).1, hxv⟩
    have hmul := Nat.mul_le_mul_right (g.numVertices * g.numVertices + 1) htouched
    have hnum : (g.removeEdges e.source e.target).numVertices = g.numVertices := rfl
    unfold greedyMeasure
    rw [hnum]
    omega
  · have htouched : (touched (g.mergeVertices model l a b true)).length < (touched g).length :=
      h.length_touched hp ⟨e, he, hj⟩
    have hmul := Nat.mul_le_mul_right (g.numVertices * g.numVertices + 1) (Nat.succ_le_of_lt htouched)
    rw [numVertices_mergeVertices] at hW
    rw [Nat.succ_mul] at hmul
    unfold greedyMeasure
    rw [numVertices_mergeVertices]
    omega

/-- The fuel of `fuseGreedy` is enough. -/
theorem greedyMeasure_le (g : GraphDW) : greedyMeasure g ≤ g.greedyFuel := by
  have hlen : (touched g).length ≤ g.numVertices := by
    have := List.length_filter_le (fun v => (g.edgesD.any fun e => e.1 == v || e.2 == v) ||
      g.edgesW.any fun e => e.source == v || e.target == v) (List.range g.numVertices)
    rwa [List.length_range] at this
  exact Nat.add_le_add_right (Nat.mul_le_mul_right _ hlen) _

/-! ## The end of the loops -/

theorem Acyclical.gentle_mem_eval (h : Acyclical l g) : Rounds.fueled (gentleRound model l) g.numVertices
    (List.range g.numVertices, g) ∈ eval (gentleRound model l) (List.range g.numVertices, g) := by
  refine Rounds.fueled_mem_eval (fun s => s.1.length) (P := fun s => Acyclical l s.2)
    (fun s t hs hround => hs.of_gentleRound hround) h ?_
  rw [List.length_range]

theorem Acyclical.greedy_mem_eval (h : Acyclical l g) :
    Rounds.fueled (greedyRound model l) g.greedyFuel g ∈ eval (greedyRound model l) g :=
  Rounds.fueled_mem_eval greedyMeasure (P := Acyclical l)
    (fun _ _ hs hround => ⟨hs.of_greedyRound hround, hs.greedyMeasure_lt hround⟩) h (greedyMeasure_le g)

/-- The invariant with the weight edges that `dag_validate` asks for. -/
structure Coupled (model : FuseModel) (l : List BhInstruction) (g : GraphDW) : Prop extends Acyclical l g where
  covered : Covered model l g

theorem Coupled.of_greedyRound {g' : GraphDW} (hsym : FusibleSymm model l) (h : Coupled model l g)
    (hround : GraphDW.greedyRound model l g = some g') : Coupled model l g' := by
  refine ⟨h.toAcyclical.of_greedyRound hround, ?_⟩
  obtain ⟨e, hpick, rfl⟩ := Option.map_eq_some_iff.mp hround
  rcases h.greedyStep_cases (greedyPick_mem hpick) with heq | ⟨a, b, hp, _, _, heq⟩ <;> rw [heq]
  · exact h.covered.removeEdges _ _
  · exact h.covered.mergeVertices hsym h.bounded hp

/-- Without weight edges, no two fusible kernels are joined by a dependency edge. -/
theorem Coupled.not_fusible (hsym : FusibleSymm model l) (h : Coupled model l g) (hW : g.edgesW = []) {u v : ℕ}
    (he : (u, v) ∈ g.edgesD) : (g.kernel u).fusibleKernel model l (g.kernel v) = false ∧
      (g.kernel v).fusibleKernel model l (g.kernel u) = false := by
  have hno : ¬ 0 ≤ (g.kernel u).mergeCostSavings model l (g.kernel v) := by
    intro hcost
    obtain ⟨e, hmem, _⟩ := h.covered u v he hcost
    rw [hW] at hmem
    cases hmem
  have hno' := mt (h.bounded.nonneg_comm hsym u v).mpr hno
  rw [mergeCostSavings_nonneg_iff, Bool.not_eq_true] at hno hno'
  exact ⟨hno, hno'⟩

/-- The graph that is left has the edges of the last round between the same kernels. -/
theorem Coupled.removeClearedVertices (hsym : FusibleSymm model l) (h : Coupled model l g) (hW : g.edgesW = [])
    {u v : ℕ} (he : (u, v) ∈ g.removeClearedVertices.edgesD) :
    ∃ x y, (x, y) ∈ g.edgesD ∧ g.removeClearedVertices.kernel u = g.kernel x ∧
      g.removeClearedVertices.kernel v = g.kernel y := by
  obtain ⟨⟨x, y⟩, hxy, heq⟩ := List.mem_map.mp he
  obtain ⟨rfl, rfl⟩ := Prod.mk.inj heq
  obtain ⟨hno, hno'⟩ := h.not_fusible hsym hW hxy
  have hlive : ∀ {x y : ℕ}, (g.kernel x).fusibleKernel model l (g.kernel y) = false → x ∈ g.live := by
    intro x y hno
    rw [mem_live]
    intro hnil
    rw [BhIrKernel.fusibleKernel, hnil] at hno
    cases hno
  have hkernel : ∀ {x : ℕ}, x ∈ g.live → g.removeClearedVertices.kernel (g.live.idxOf x) = g.kernel x := by
    intro x hx
    show (g.live.map g.kernel).getD (g.live.idxOf x) {} = _
    rw [List.getD_eq_getElem?_getD, List.getElem?_map, List.getElem?_idxOf hx]
    rfl
  exact ⟨x, y, hxy, hkernel (hlive hno), hkernel (hlive hno')⟩

/-! ## Graphs that pass `dag_validate` -/

theorem Sound.formed (h : g.Sound l) : Formed l g :=
  ⟨h.bounded, h.inRange, fun e he => ⟨(h.ends e he).1, (h.ends e he).2.1.lt, (h.ends e he).2.2.lt⟩, h.simple⟩

theorem Coupled.of_dagValidate {boost : Boost} (h : Formed l g) (hv : dagValidate model l boost g = true) :
    Coupled model l g := by
  unfold dagValidate at hv
  simp only [Bool.and_eq_true, List.all_eq_true, Bool.or_eq_true, beq_iff_eq] at hv
  obtain ⟨⟨⟨_, hsort⟩, _⟩, hcost⟩ := hv
  refine ⟨⟨h, ?_⟩, ?_⟩
  · by_contra hcyclic
    rw [boost.topologicalSort_cyclic _ _ h.inRange hcyclic] at hsort
    cases hsort
  · intro u v he hpos
    rcases hcost (u, v) he with heq | hany
    · rw [heq] at hpos
      cases hpos
    · cases hfind : findEdgeW u v g.edgesW with
      | none =>
        rw [hfind] at hany
        cases hany
      | some f => exact ⟨f, List.mem_of_find?_eq_some hfind, List.find?_some (p := fun f : EdgeW => f.joins u v) hfind⟩

theorem Acyclical.of_gentleReaches (h : Acyclical l g) {vs : List ℕ} {s : List ℕ × GraphDW}
    (hs : Reaches (gentleRound model l) (vs, g) s) : Acyclical l s.2 :=
  Rounds.reaches_invariant (P := fun s => Acyclical l s.2) (fun _ _ hs hround => (hs.of_gentleRound hround).1) hs h

/-- Both fusers end on every graph that `dag_validate` accepts, merge only adjoining vertices on the way,
and greedy fusion leaves no dependency edge between kernels that are fusible with each other. -/
theorem fusion_terminates (boost : Boost) (model : FuseModel) (l : List BhInstruction) (hsym : FusibleSymm model l)
    (g : GraphDW) (hg : Formed l g) (hv : dagValidate model l boost g = true) :
    (∃ s ∈ eval (gentleRound model l) (List.range g.numVertices, g), g.fuseGently model l = s.2.removeClearedVertices) ∧
    (∃ g' ∈ eval (greedyRound model l) g, g.fuseGreedy model l = g'.removeClearedVertices) ∧
    (∀ s, Reaches (gentleRound model l) (List.range g.numVertices, g) s → ∀ a b,
      gentleMerge model l s = some (a, b) → a ≠ b ∧ Adjoining s.2 a b) ∧
    (∀ g', Reaches (greedyRound model l) g g' → ∀ a b,
      greedyMerge l g' = some (a, b) → a ≠ b ∧ Adjoining g' a b) ∧
    ∀ u v, (u, v) ∈ (g.fuseGreedy model l).edgesD →
      ((g.fuseGreedy model l).kernel u).fusibleKernel model l ((g.fuseGreedy model l).kernel v) = false ∧
        ((g.fuseGreedy model l).kernel v).fusibleKernel model l ((g.fuseGreedy model l).kernel u) = false := by
  have h := Coupled.of_dagValidate hg hv
  refine ⟨⟨_, h.toAcyclical.gentle_mem_eval, ?_⟩, ⟨_, h.toAcyclical.greedy_mem_eval, ?_⟩, ?_, ?_, ?_⟩
  · rw [fuseGently, fuseGentlyLoop_eq_fueled]
  · rw [fuseGreedy, fuseGreedyLoop_eq_fueled]
  · intro s hs a b hm
    obtain ⟨hp, hadj⟩ := (h.toAcyclical.of_gentleReaches hs).of_gentleMerge hm
    exact ⟨hp.ne, hadj⟩
  · intro g' hs a b hm
    have hg' : Acyclical l g' := Rounds.reaches_invariant (fun _ _ hs hround => hs.of_greedyRound hround) hs h.toAcyclical
    obtain ⟨hp, hadj⟩ := hg'.of_greedyMerge hm
    exact ⟨hp.ne, hadj⟩
  · intro u v he
    obtain ⟨hrun, hstop⟩ := mem_eval.mp h.toAcyclical.greedy_mem_eval
    rw [fuseGreedy, fuseGreedyLoop_eq_fueled] at he ⊢
    have hlast := Rounds.reaches_invariant (fun _ _ hs hround => hs.of_greedyRound hsym hround) hrun h
    have hW := greedyPick_eq_none (Option.map_eq_none_iff.mp hstop)
    obtain ⟨x, y, hxy, hu, hv⟩ := hlast.removeClearedVertices hsym hW he
    rw [hu, hv]
    exact hlast.not_fusible hsym hW hxy

theorem fusion_terminates_addThenDouble :
    ∃ g' ∈ eval (greedyRound .sameShape addThenDouble) (fromBhir addThenDouble .sameShape),
      (fromBhir addThenDouble .sameShape).fuseGreedy .sameShape addThenDouble = g'.removeClearedVertices :=
  (fusion_terminates plainBoost .sameShape addThenDouble (by unfold FusibleSymm; decide) _
    (sound_fromBhir .sameShape addThenDouble).1.formed (by decide +kernel)).2.1

end GraphDW
end Bohrium
