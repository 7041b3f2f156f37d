import Bohrium.Dag.Merging

/-! # Splitting keeps dependent instructions in order

`split` collapses the components of the weight graph, and the components that depend on each other
in a cycle, into the condensation of the dependency graph. Its parts are convex, so each is a sound
graph of its own, and a topological order of the condensation puts no part before one it depends
on. -/
namespace Bohrium
open Relation Edges Reorder
set_option autoImplicit false

/-! ## Merging components -/

/-- The component graph `c` is `c₀` with the components collapsed along `f`. -/
structure Contracted (c₀ c : GraphComp) (f : ℕ → ℕ) : Prop where
  length : c.comps.length = c₀.comps.length
  inRange : InRange c₀.comps.length c.edges
  edges : ∀ u v, (u, v) ∈ c.edges ↔ Image f (Adj c₀.edges) u v
  comps : ∀ w x, x ∈ c.comps.getD w [] ↔ ∃ d, f d = w ∧ x ∈ c₀.comps.getD d []

section
variable {c₀ c : GraphComp} {f : ℕ → ℕ} {root it : ℕ}

theorem getD_mergeComponent (hne : root ≠ it) (hroot : root < c.comps.length)
    (hit : it < c.comps.length) (w : ℕ) : (mergeComponent root c it).comps.getD w [] =
      if w = it then [] else if w = root then c.comps.getD root [] ++ c.comps.getD it []
      else c.comps.getD w [] := by
  simp only [mergeComponent, List.getD_eq_getElem?_getD, List.getElem?_set, List.length_set]
  by_cases h1 : w = it
  · subst h1
    simp [hit]
  · by_cases h2 : w = root
    · subst h2
      simp [h1, Ne.symm h1, hroot]
    · simp [h1, h2, Ne.symm h1, Ne.symm h2]

theorem Contracted.mergeComponent (h : Contracted c₀ c f) (hne : root ≠ it)
    (hroot : root < c₀.comps.length) (hit : it < c₀.comps.length) :
    Contracted c₀ (mergeComponent root c it) (contract root it ∘ f) := by
  have hloop : ∀ u v, (u, v) ∈ c.edges → u ≠ v := fun u v he => ((h.edges u v).mp he).1
  have hedges : ∀ u v, (u, v) ∈ (Bohrium.mergeComponent root c it).edges ↔
      Image (contract root it) (Adj c.edges) u v := by
    intro u v
    rw [← GraphDW.contracted_iff h.inRange hloop hne]
    unfold Bohrium.mergeComponent
    simp only [List.mem_filter, GraphDW.mem_foldl_setInsert, decide_eq_true_eq, List.mem_range, h.length,
      Prod.mk.injEq, and_assoc, or_assoc]
  refine ⟨?_, ?_, ?_, ?_⟩
  · unfold Bohrium.mergeComponent
    rw [List.length_set, List.length_set, h.length]
  · intro e he
    obtain ⟨_, x, y, hxy, hx, hy⟩ := (hedges e.1 e.2).mp he
    obtain ⟨hxlt, hylt⟩ := h.inRange _ hxy
    unfold contract at hx hy
    split_ifs at hx hy <;> constructor <;> omega
  · intro u v
    have hE : Adj c.edges = Image f (Adj c₀.edges) := by
      funext x y
      exact propext (h.edges x y)
    rw [hedges, hE, image_image]
  · intro w x
    have hmem : ∀ v, x ∈ c.comps.getD v [] → ∃ d, f d = v ∧ x ∈ c₀.comps.getD d [] :=
      fun v => (h.comps v x).mp
    rw [getD_mergeComponent hne (h.length ▸ hroot) (h.length ▸ hit)]
    constructor
    · intro hx
      split_ifs at hx with h1 h2
      · cases hx
      · subst h2
        rcases List.mem_append.mp hx with hx | hx
        · obtain ⟨d, hd, hxd⟩ := hmem w hx
          exact ⟨d, by rw [Function.comp, hd, contract, if_neg h1], hxd⟩
        · obtain ⟨d, hd, hxd⟩ := hmem it hx
          exact ⟨d, by rw [Function.comp, hd, contract, if_pos rfl], hxd⟩
      · obtain ⟨d, hd, hxd⟩ := hmem w hx
        exact ⟨d, by rw [Function.comp, hd, contract, if_neg h1], hxd⟩
    · rintro ⟨d, rfl, hxd⟩
      have hfd : x ∈ c.comps.getD (f d) [] := (h.comps (f d) x).mpr ⟨d, rfl, hxd⟩
      rw [Function.comp, contract]
      by_cases hd : f d = it
      · rw [if_pos hd, if_neg hne, if_pos rfl]
        exact List.mem_append_right _ (hd ▸ hfd)
      · rw [if_neg hd, if_neg hd]
        split_ifs with hr
        · exact List.mem_append_left _ (hr ▸ hfd)
        · exact hfd

/-- A list of merges that each move a component to the root of its class collapses the moved
components to their roots. -/
theorem Contracted.foldl (cls : ℕ → ℕ) (merges : List (ℕ × ℕ))
    (hm : ∀ p ∈ merges, p.1 = cls p.2 ∧ cls p.1 = p.1 ∧ p.1 ≠ p.2 ∧ p.1 < c₀.comps.length ∧
      p.2 < c₀.comps.length) (h : Contracted c₀ c f) :
    Contracted c₀ (merges.foldl (fun c p => Bohrium.mergeComponent p.1 c p.2) c)
      (fun d => if f d ∈ merges.map Prod.snd then cls (f d) else f d) := by
  induction merges generalizing c f with
  | nil => simpa using h
  | cons p merges ih =>
    obtain ⟨h1, h2, h3, h4, h5⟩ := hm p List.mem_cons_self
    have hrest := ih (fun q hq => hm q (List.mem_cons_of_mem p hq)) (h.mergeComponent h3 h4 h5)
    rw [List.foldl_cons]
    convert hrest using 1
    funext d
    by_cases hd : f d = p.2
    · have hcd : (contract p.1 p.2 ∘ f) d = p.1 := if_pos hd
      have hmem : f d ∈ (p :: merges).map Prod.snd := by simp [hd]
      rw [hcd, if_pos hmem, hd, ← h1, h2, ite_self]
    · have hcd : (contract p.1 p.2 ∘ f) d = f d := if_neg hd
      have hmem : f d ∈ (p :: merges).map Prod.snd ↔ f d ∈ merges.map Prod.snd := by
        rw [List.map_cons, List.mem_cons]
        exact or_iff_right hd
      rw [hcd]
      simp only [hmem]

end

/-- The root of the class of a component: the first component of the class. -/
def strongRoot (boost : Boost) (c : GraphComp) : ℕ → ℕ :=
  representative c.comps.length fun u v =>
    (boost.strongComponents c.comps.length c.edges).2 v ==
      (boost.strongComponents c.comps.length c.edges).2 u

/-- The merges that `mergeStrong` makes, in order: root and merged component. -/
def strongMerges (boost : Boost) (c : GraphComp) : List (ℕ × ℕ) :=
  (List.range (boost.strongComponents c.comps.length c.edges).1).flatMap fun s =>
    match (List.range c.comps.length).filter fun v =>
      (boost.strongComponents c.comps.length c.edges).2 v == s with
    | [] => []
    | root :: rest => rest.map fun it => (root, it)

theorem mergeStrong_eq (boost : Boost) (c : GraphComp) : mergeStrong boost c =
    (strongMerges boost c).foldl (fun c p => mergeComponent p.1 c p.2) c := by
  unfold mergeStrong strongMerges
  simp only [List.foldl_flatMap]
  congr 1
  funext acc s
  cases (List.range c.comps.length).filter fun v =>
      (boost.strongComponents c.comps.length c.edges).2 v == s with
  | nil => rfl
  | cons root rest =>
    simp only [List.foldl_map]

section
variable {boost : Boost} {c : GraphComp}

theorem strongRoot_spec {u : ℕ} (hu : u < c.comps.length) : strongRoot boost c u < c.comps.length ∧
    (boost.strongComponents c.comps.length c.edges).2 (strongRoot boost c u) =
      (boost.strongComponents c.comps.length c.edges).2 u := by
  have h := representative_spec (r := fun u v =>
    (boost.strongComponents c.comps.length c.edges).2 v ==
      (boost.strongComponents c.comps.length c.edges).2 u) (fun u => beq_self_eq_true _) hu
  exact ⟨h.1, beq_iff_eq.mp h.2⟩

theorem strongRoot_eq_iff {u v : ℕ} (hu : u < c.comps.length) (hv : v < c.comps.length) :
    strongRoot boost c u = strongRoot boost c v ↔
      (boost.strongComponents c.comps.length c.edges).2 u =
        (boost.strongComponents c.comps.length c.edges).2 v := by
  have h := representative_eq_iff (r := fun u v =>
    (boost.strongComponents c.comps.length c.edges).2 v ==
      (boost.strongComponents c.comps.length c.edges).2 u) (fun u => beq_self_eq_true _) ?_ ?_ hu hv
  · rw [strongRoot, h, beq_iff_eq, eq_comm]
  · intro u v h
    exact beq_iff_eq.mpr (beq_iff_eq.mp h).symm
  · intro u v w h1 h2
    exact beq_iff_eq.mpr ((beq_iff_eq.mp h2).trans (beq_iff_eq.mp h1))

/-- The first component of a class is the root of its members. -/
theorem strongRoot_of_filter {s root it : ℕ} {rest : List ℕ}
    (hl : ((List.range c.comps.length).filter fun v =>
      (boost.strongComponents c.comps.length c.edges).2 v == s) = root :: rest)
    (hit : it ∈ root :: rest) : strongRoot boost c it = root := by
  have hs : (boost.strongComponents c.comps.length c.edges).2 it = s := by
    rw [← hl] at hit
    exact beq_iff_eq.mp (List.mem_filter.mp hit).2
  unfold strongRoot representative
  simp only [hs]
  rw [← List.head?_filter, hl]
  rfl

theorem mem_strongMerges {p : ℕ × ℕ} (hp : p ∈ strongMerges boost c) :
    p.1 = strongRoot boost c p.2 ∧ strongRoot boost c p.1 = p.1 ∧ p.1 ≠ p.2 ∧
      p.1 < c.comps.length ∧ p.2 < c.comps.length := by
  obtain ⟨s, _, hp⟩ := List.mem_flatMap.mp hp
  cases hl : (List.range c.comps.length).filter fun v =>
      (boost.strongComponents c.comps.length c.edges).2 v == s with
  | nil =>
    rw [hl] at hp
    cases hp
  | cons root rest =>
    rw [hl] at hp
    obtain ⟨it, hit, rfl⟩ := List.mem_map.mp hp
    have hroot := strongRoot_of_filter hl List.mem_cons_self
    have hitroot := strongRoot_of_filter hl (List.mem_cons_of_mem root hit)
    have hnd : (root :: rest).Nodup := hl ▸ List.nodup_range.filter _
    have hlt : ∀ v ∈ root :: rest, v < c.comps.length := by
      intro v hv
      rw [← hl] at hv
      exact List.mem_range.mp (List.mem_filter.mp hv).1
    refine ⟨hitroot.symm, hroot, ?_, hlt root List.mem_cons_self, hlt it (List.mem_cons_of_mem root hit)⟩
    intro heq
    exact (List.nodup_cons.mp hnd).1 ((show root = it from heq) ▸ hit)

theorem mem_snd_strongMerges (hin : InRange c.comps.length c.edges) {u : ℕ} (hu : u < c.comps.length)
    (hne : strongRoot boost c u ≠ u) : u ∈ (strongMerges boost c).map Prod.snd := by
  have hlt := boost.strongComponents_lt _ _ hin u hu
  have hmem : u ∈ (List.range c.comps.length).filter fun v =>
      (boost.strongComponents c.comps.length c.edges).2 v ==
        (boost.strongComponents c.comps.length c.edges).2 u :=
    List.mem_filter.mpr ⟨List.mem_range.mpr hu, beq_self_eq_true _⟩
  cases hl : (List.range c.comps.length).filter fun v =>
      (boost.strongComponents c.comps.length c.edges).2 v ==
        (boost.strongComponents c.comps.length c.edges).2 u with
  | nil =>
    rw [hl] at hmem
    cases hmem
  | cons root rest =>
    rw [hl] at hmem
    have hroot := strongRoot_of_filter hl hmem
    have hrest : u ∈ rest := (List.mem_cons.mp hmem).resolve_left fun e => hne (hroot.trans e.symm)
    refine List.mem_map.mpr ⟨(root, u), List.mem_flatMap.mpr ⟨_, List.mem_range.mpr hlt, ?_⟩, rfl⟩
    rw [hl]
    exact List.mem_map.mpr ⟨u, hrest, rfl⟩

/-- The merged graph is the component graph with every class collapsed to its root. -/
theorem contracted_mergeStrong (boost : Boost) (hin : InRange c.comps.length c.edges)
    (hloop : ∀ u v, (u, v) ∈ c.edges → u ≠ v) :
    ∃ f : ℕ → ℕ, Contracted c (mergeStrong boost c) f ∧
      ∀ u < c.comps.length, f u = strongRoot boost c u := by
  have hid : Contracted c c id := by
    refine ⟨rfl, hin, fun u v => ?_, fun w x => ?_⟩
    · constructor
      · intro he
        exact ⟨hloop u v he, u, v, he, rfl, rfl⟩
      · rintro ⟨_, x, y, hxy, rfl, rfl⟩
        exact hxy
    · simp
  rw [mergeStrong_eq]
  refine ⟨_, hid.foldl (strongRoot boost c) _ fun p hp => mem_strongMerges hp, fun u hu => ?_⟩
  by_cases hr : strongRoot boost c u = u
  · simp [hr]
  · exact if_pos (mem_snd_strongMerges hin hu hr)

end

/-! ## The parts -/

theorem mem_componentGraph_edges (boost : Boost) (g : GraphDW) (u v : ℕ) :
    (u, v) ∈ (componentGraph boost g).edges ↔
      Image (boost.connectedComponents g.numVertices
        (g.edgesW.map fun e => (e.source, e.target))).2 (Adj g.edgesD) u v := by
  unfold componentGraph
  dsimp only
  generalize (boost.connectedComponents g.numVertices
    (g.edgesW.map fun e => (e.source, e.target))).2 = comp
  have hfold : ∀ (es E : List (ℕ × ℕ)), (u, v) ∈ es.foldl (fun E e =>
      if comp e.1 ≠ comp e.2 then setInsert (comp e.1, comp e.2) E else E) E ↔
      (u, v) ∈ E ∨ Image comp (Adj es) u v := by
    intro es
    induction es with
    | nil =>
      intro E
      simp [Image, Adj]
    | cons e es ih =>
      intro E
      have hcons : Image comp (Adj (e :: es)) u v ↔
          (u ≠ v ∧ comp e.1 = u ∧ comp e.2 = v) ∨ Image comp (Adj es) u v := by
        constructor
        · rintro ⟨hne, x, y, hxy, hx, hy⟩
          rcases List.mem_cons.mp hxy with rfl | hxy
          · exact Or.inl ⟨hne, hx, hy⟩
          · exact Or.inr ⟨hne, x, y, hxy, hx, hy⟩
        · rintro (⟨hne, hx, hy⟩ | ⟨hne, x, y, hxy, hx, hy⟩)
          · exact ⟨hne, e.1, e.2, List.mem_cons_self, hx, hy⟩
          · exact ⟨hne, x, y, List.mem_cons_of_mem e hxy, hx, hy⟩
      rw [List.foldl_cons, ih, hcons, ← or_assoc]
      refine or_congr_left ?_
      split_ifs with hc
      · rw [mem_setInsert, Prod.mk.injEq, or_comm]
        refine or_congr_right ⟨?_, ?_⟩
        · rintro ⟨rfl, rfl⟩
          exact ⟨hc, rfl, rfl⟩
        · rintro ⟨_, rfl, rfl⟩
          exact ⟨rfl, rfl⟩
      · refine (or_iff_left ?_).symm
        rintro ⟨hne, rfl, rfl⟩
        exact hc hne
  rw [hfold]
  exact or_iff_right List.not_mem_nil

theorem mem_componentGraph_comps {boost : Boost} {g : GraphDW}
    (hW : InRange g.numVertices (g.edgesW.map fun e => (e.source, e.target))) (d x : ℕ) :
    x ∈ (componentGraph boost g).comps.getD d [] ↔ x < g.numVertices ∧
      (boost.connectedComponents g.numVertices (g.edgesW.map fun e => (e.source, e.target))).2 x = d := by
  have hlen : (componentGraph boost g).comps.length = (boost.connectedComponents g.numVertices
      (g.edgesW.map fun e => (e.source, e.target))).1 := by simp [componentGraph]
  by_cases hd : d < (componentGraph boost g).comps.length
  · rw [List.getD_eq_getElem _ _ hd]
    simp [componentGraph]
  · rw [List.getD_eq_default _ _ (Nat.le_of_not_lt hd)]
    constructor
    · intro hx
      cases hx
    · rintro ⟨hx, rfl⟩
      exact absurd (hlen ▸ boost.connectedComponents_lt _ _ hW x hx) hd

/-- What `split` makes: convex parts that cover the vertices, none before one it depends on. -/
structure Splits (g : GraphDW) (parts : List (List ℕ)) : Prop where
  nodup : ∀ vs ∈ parts, vs.Nodup
  bound : ∀ vs ∈ parts, ∀ v ∈ vs, v < g.numVertices
  convex : ∀ vs ∈ parts, ∀ u ∈ vs, ∀ v ∈ vs, ∀ x, TransGen (Adj g.edgesD) u x →
    TransGen (Adj g.edgesD) x v → x ∈ vs
  cover : ∀ v < g.numVertices, ∃ vs ∈ parts, v ∈ vs
  disjoint : parts.Pairwise List.Disjoint
  order : parts.Pairwise fun vs ws => ∀ u ∈ ws, ∀ v ∈ vs, ¬ TransGen (Adj g.edgesD) u v

/-- The parts hold every vertex once. -/
theorem Splits.perm {g : GraphDW} {parts : List (List ℕ)} (h : Splits g parts) :
    parts.flatten.Perm (List.range g.numVertices) := by
  refine (List.perm_ext_iff_of_nodup ?_ List.nodup_range).mpr fun v => ?_
  · exact List.nodup_flatten.mpr ⟨h.nodup, h.disjoint⟩
  · rw [List.mem_flatten, List.mem_range]
    constructor
    · rintro ⟨vs, hvs, hv⟩
      exact h.bound vs hvs v hv
    · exact h.cover v

/-- The fibres of a map onto an acyclic image, in an order without a path backwards, split the
graph. -/
theorem splits_of_fibres {g : GraphDW} (hin : InRange g.numVertices g.edgesD) (part : ℕ → ℕ)
    (hconvex : ∀ u v x, part u = part v → TransGen (Adj g.edgesD) u x → TransGen (Adj g.edgesD) x v →
      part x = part u)
    (ws : List ℕ) (hnd : ws.Nodup) (hcover : ∀ v < g.numVertices, part v ∈ ws)
    (hback : ws.Pairwise fun a b => ¬ TransGen (Image part (Adj g.edgesD)) b a) :
    Splits g (ws.map fun w => (List.range g.numVertices).filter fun v => part v = w) := by
  have hmem : ∀ w v, v ∈ (List.range g.numVertices).filter (fun v => part v = w) ↔
      v < g.numVertices ∧ part v = w := by
    intro w v
    rw [List.mem_filter, List.mem_range, decide_eq_true_eq]
  refine ⟨?_, ?_, ?_, ?_, ?_, ?_⟩
  · intro vs hvs
    obtain ⟨w, _, rfl⟩ := List.mem_map.mp hvs
    exact List.nodup_range.filter _
  · intro vs hvs v hv
    obtain ⟨w, _, rfl⟩ := List.mem_map.mp hvs
    exact ((hmem w v).mp hv).1
  · intro vs hvs u hu v hv x hux hxv
    obtain ⟨w, _, rfl⟩ := List.mem_map.mp hvs
    obtain ⟨_, hpu⟩ := (hmem w u).mp hu
    obtain ⟨_, hpv⟩ := (hmem w v).mp hv
    obtain ⟨y, hxy, _⟩ := path_first hxv
    exact (hmem w x).mpr ⟨(hin _ hxy).1, (hconvex u v x (hpu.trans hpv.symm) hux hxv).trans hpu⟩
  · intro v hv
    exact ⟨_, List.mem_map.mpr ⟨part v, hcover v hv, rfl⟩, (hmem (part v) v).mpr ⟨hv, rfl⟩⟩
  · refine List.pairwise_map.mpr (hnd.imp fun {a b} hab v hva hvb => ?_)
    exact hab (((hmem a v).mp hva).2.symm.trans ((hmem b v).mp hvb).2)
  · refine List.pairwise_map.mpr (List.Pairwise.imp₂ ?_ hback hnd)
    intro a b hba hab u hu v hv huv
    have hua := ((hmem b u).mp hu).2
    have hva := ((hmem a v).mp hv).2
    have hpath : part u = part v ∨ TransGen (Image part (Adj g.edgesD)) (part u) (part v) := by
      refine path_map part (fun x y hxy => ?_) huv
      by_cases hp : part x = part y
      · exact Or.inl hp
      · exact Or.inr ⟨hp, x, y, hxy, rfl, rfl⟩
    rw [hua, hva] at hpath
    exact hpath.elim (fun e => hab e.symm) hba

namespace GraphDW
variable {l : List BhInstruction} {g : GraphDW}

theorem Sound.inRange_weights (hs : g.Sound l) :
    InRange g.numVertices (g.edgesW.map fun e => (e.source, e.target)) := by
  intro e he
  obtain ⟨w, hw, rfl⟩ := List.mem_map.mp he
  obtain ⟨_, h1, h2⟩ := hs.ends w hw
  exact ⟨h1.lt, h2.lt⟩

/-- Both graphs of a `GraphDW` have the same vertices, and their edges join these. -/
structure OnVertices (g : GraphDW) : Prop where
  numW : g.numW = g.numVertices
  edgesD : InRange g.numVertices g.edgesD
  edgesW : InRange g.numVertices (g.edgesW.map fun e => (e.source, e.target))

/-- Splitting needs no more of a graph than that its edges join its vertices: the condensation is
acyclic whatever the dependencies are. -/
theorem split_of_inRange (boost : Boost) (hD : InRange g.numVertices g.edgesD)
    (hW : InRange g.numVertices (g.edgesW.map fun e => (e.source, e.target))) :
    ∃ parts, split boost g = some (parts.map g.subgraph) ∧ Splits g parts ∧
      ∀ e ∈ g.edgesW, ∃ vs ∈ parts, e.source ∈ vs ∧ e.target ∈ vs := by
  let W := g.edgesW.map fun e => (e.source, e.target)
  let comp := (boost.connectedComponents g.numVertices W).2
  let num := (boost.connectedComponents g.numVertices W).1
  let c₀ := componentGraph boost g
  have hlen : c₀.comps.length = num := by simp [c₀, componentGraph, num, W]
  have hcomp : ∀ v < g.numVertices, comp v < num :=
    boost.connectedComponents_lt _ _ hW
  have hE₀ : ∀ u v, (u, v) ∈ c₀.edges ↔ Image comp (Adj g.edgesD) u v :=
    mem_componentGraph_edges boost g
  have hin₀ : InRange c₀.comps.length c₀.edges := by
    intro e he
    obtain ⟨_, x, y, hxy, hx, hy⟩ := (hE₀ e.1 e.2).mp he
    obtain ⟨hxlt, hylt⟩ := hD _ hxy
    rw [hlen, ← hx, ← hy]
    exact ⟨hcomp x hxlt, hcomp y hylt⟩
  obtain ⟨f, hf, hroot⟩ := contracted_mergeStrong boost hin₀ fun u v he => ((hE₀ u v).mp he).1
  -- two components collapse exactly if they depend on each other
  have hclass : ∀ u < num, ∀ v < num, f u = f v ↔
      ReflTransGen (Adj c₀.edges) u v ∧ ReflTransGen (Adj c₀.edges) v u := by
    intro u hu v hv
    rw [← hlen] at hu hv
    rw [hroot u hu, hroot v hv, strongRoot_eq_iff hu hv, boost.strongComponents_iff _ _ hin₀ u hu v hv]
  let part := f ∘ comp
  let c := mergeStrong boost c₀
  have hE : ∀ u v, (u, v) ∈ c.edges ↔ Image part (Adj g.edgesD) u v := by
    intro u v
    have hadj : Adj c₀.edges = Image comp (Adj g.edgesD) := by
      funext x y
      exact propext (hE₀ x y)
    rw [hf.edges, hadj, image_image]
  have hac : Acyclic (Adj c.edges) := by
    have hcond := acyclic_condensation (E := Adj c₀.edges) (s := {u | u < num}) f
      (fun u v he => by simpa [← hlen] using hin₀ _ he) hclass
    exact hcond.mono fun u v he => (hf.edges u v).mp he
  have hpath : ∀ u v, TransGen (Adj g.edgesD) u v → ReflTransGen (Adj c₀.edges) (comp u) (comp v) := by
    intro u v huv
    rw [reflTransGen_iff_eq_or_transGen]
    refine (path_map comp (fun x y hxy => ?_) huv).imp_left Eq.symm
    by_cases he : comp x = comp y
    · exact Or.inl he
    · exact Or.inr ((hE₀ _ _).mpr ⟨he, x, y, hxy, rfl, rfl⟩)
  have hconvex : ∀ u v x, part u = part v → TransGen (Adj g.edgesD) u x →
      TransGen (Adj g.edgesD) x v → part x = part u := by
    intro u v x hp hux hxv
    obtain ⟨y, huy, _⟩ := path_first hux
    obtain ⟨y', hxy', _⟩ := path_first hxv
    obtain ⟨y'', _, hyv⟩ := path_last hxv
    have hu := hcomp u (hD _ huy).1
    have hx := hcomp x (hD _ hxy').1
    have hv := hcomp v (hD _ hyv).2
    have hvu := ((hclass _ hu _ hv).mp hp).2
    exact (hclass _ hx _ hu).mpr ⟨(hpath x v hxv).trans hvu, hpath u x hux⟩
  have hmem : ∀ w x, x ∈ c.comps.getD w [] ↔ x < g.numVertices ∧ part x = w := by
    intro w x
    have hcomps : ∀ d, x ∈ c₀.comps.getD d [] ↔ x < g.numVertices ∧ comp x = d := fun d =>
      mem_componentGraph_comps hW d x
    rw [hf.comps]
    constructor
    · rintro ⟨d, rfl, hx⟩
      obtain ⟨hlt, rfl⟩ := (hcomps d).mp hx
      exact ⟨hlt, rfl⟩
    · rintro ⟨hlt, rfl⟩
      exact ⟨comp x, rfl, (hcomps _).mpr ⟨hlt, rfl⟩⟩
  have hinc : InRange c.comps.length c.edges := hf.length ▸ hf.inRange
  obtain ⟨order, hsort, hperm, htopo⟩ := boost.topologicalSort_acyclic _ _ hinc hac
  have hnd : order.reverse.Nodup := List.nodup_reverse.mpr (hperm.nodup_iff.mpr List.nodup_range)
  let ws := order.reverse.filter fun w => c.comps.getD w [] ≠ []
  have hsplit := splits_of_fibres hD part hconvex ws (hnd.filter _) ?_ ?_
  · refine ⟨_, ?_, hsplit, ?_⟩
    · rw [Bohrium.split, hsort, Option.map_some, List.map_map]
      refine congrArg some (List.map_congr_left fun w _ => congrArg g.subgraph ?_)
      refine List.filter_congr fun x hx => ?_
      rw [decide_eq_decide, hmem]
      exact and_iff_right (List.mem_range.mp hx)
    · -- the ends of a weight edge are in one component
      intro e he
      obtain ⟨hsrc, htgt⟩ := hW (e.source, e.target) (List.mem_map.mpr ⟨e, he, rfl⟩)
      have hsame : part e.source = part e.target := by
        refine congrArg f ((boost.connectedComponents_iff _ _ hW _ hsrc _ htgt).mpr ?_)
        apply ReflTransGen.single
        exact List.mem_append_left _ (List.mem_map.mpr ⟨e, he, rfl⟩)
      obtain ⟨vs, hvs, hmemvs⟩ := hsplit.cover e.source hsrc
      refine ⟨vs, hvs, hmemvs, ?_⟩
      obtain ⟨w, _, rfl⟩ := List.mem_map.mp hvs
      have hw := of_decide_eq_true (List.mem_filter.mp hmemvs).2
      exact List.mem_filter.mpr ⟨List.mem_range.mpr htgt, decide_eq_true (hsame.symm.trans hw)⟩
  · intro v hv
    have hlt : part v < c.comps.length := by
      have hu : comp v < c₀.comps.length := hlen ▸ hcomp v hv
      rw [hf.length, show part v = strongRoot boost c₀ (comp v) from hroot _ hu]
      exact (strongRoot_spec hu).1
    refine List.mem_filter.mpr ⟨List.mem_reverse.mpr (hperm.mem_iff.mpr (List.mem_range.mpr hlt)), ?_⟩
    exact decide_eq_true (List.ne_nil_of_mem ((hmem _ v).mpr ⟨hv, rfl⟩))
  · refine List.Pairwise.filter _ (List.pairwise_iff_forall_sublist.mpr ?_)
    intro a b hab hba
    have htopo' : ∀ u v, Image part (Adj g.edgesD) u v → [u, v].Sublist order.reverse := by
      intro u v he
      simpa using List.reverse_sublist.mpr (htopo u v ((hE u v).mpr he))
    exact not_pair_sublist_swap hnd hab (BlockGraph.path_sublist hnd htopo' hba)

/-- A sound graph is split without a cycle. -/
theorem Sound.split (boost : Boost) (hs : g.Sound l) :
    ∃ parts, split boost g = some (parts.map g.subgraph) ∧ Splits g parts := by
  obtain ⟨parts, hsplit, hparts, _⟩ := split_of_inRange boost hs.inRange hs.inRange_weights
  exact ⟨parts, hsplit, hparts⟩

/-- A list of vertices of a sound graph as a graph of its own. -/
theorem partOf_subgraph (g : GraphDW) (vs : List ℕ) : PartOf (g.subgraph vs) g vs where
  kernels := rfl
  edgesD := by
    intro u v
    simp only [subgraph, List.mem_map, List.mem_filter, decide_eq_true_eq, Prod.exists, Prod.mk.injEq,
      and_assoc]
  edgesW := by
    intro e he
    obtain ⟨f, hf, rfl⟩ := List.mem_map.mp he
    obtain ⟨hf, hends⟩ := List.mem_filter.mp hf
    rw [decide_eq_true_eq] at hends
    exact ⟨f, hf, hends.1, hends.2, rfl⟩
  keptW := by
    intro f hf hs ht
    exact List.mem_map.mpr ⟨f, List.mem_filter.mpr ⟨hf, decide_eq_true ⟨hs, ht⟩⟩, rfl⟩

theorem Splits.sound {parts : List (List ℕ)} (h : Splits g parts) (hs : g.Sound l) {vs : List ℕ}
    (hvs : vs ∈ parts) : (g.subgraph vs).Sound l := by
  refine (partOf_subgraph g vs).sound hs (h.nodup vs hvs) (h.bound vs hvs) (h.convex vs hvs) ?_
  refine simple_map_idxOf (hs.simple.filter _) fun e he => ?_
  simpa using (List.mem_filter.mp he).2

/-- `split` decomposes every graph: its outputs hold every vertex once and every edge between two of
their own, no weight edge is cut, no output depends on a later one, and no dependency leaves an
output and comes back. -/
theorem split_decomposes (boost : Boost) (g : GraphDW) (hg : g.OnVertices) :
    ∃ parts : List (List ℕ), Bohrium.split boost g = some (parts.map g.subgraph) ∧
      parts.flatten.Perm (List.range g.numVertices) ∧
      (∀ vs ∈ parts, PartOf (g.subgraph vs) g vs) ∧
      (∀ e ∈ g.edgesW, ∃ vs ∈ parts, e.source ∈ vs ∧ e.target ∈ vs) ∧
      (parts.Pairwise fun vs ws => ∀ u ∈ ws, ∀ v ∈ vs, ¬ TransGen (Adj g.edgesD) u v) ∧
      ∀ vs ∈ parts, ∀ u ∈ vs, ∀ v ∈ vs, ∀ x, TransGen (Adj g.edgesD) u x →
        TransGen (Adj g.edgesD) x v → x ∈ vs := by
  obtain ⟨parts, hsplit, hparts, hweights⟩ := split_of_inRange boost hg.edgesD hg.edgesW
  exact ⟨parts, hsplit, hparts.perm, fun vs _ => partOf_subgraph g vs, hweights, hparts.order,
    hparts.convex⟩

/-- Two chains of weight edges that depend on each other, and a vertex after them. -/
def crossedChains : GraphDW :=
  { kernels := [{}, {}, {}, {}, {}]
    edgesD := [(0, 1), (2, 3), (3, 4)]
    numW := 5
    edgesW := [⟨0, 3, 8⟩, ⟨1, 2, -1⟩] }

theorem split_crossedChains : ∃ parts : List (List ℕ), Bohrium.split plainBoost crossedChains =
      some (parts.map crossedChains.subgraph) ∧
    parts.flatten.Perm (List.range crossedChains.numVertices) :=
  let ⟨parts, hsplit, hperm, _⟩ := split_decomposes plainBoost crossedChains
    ⟨rfl, by unfold InRange; decide, by unfold InRange; decide⟩
  ⟨parts, hsplit, hperm⟩

end GraphDW
end Bohrium
