import Bohrium.Dag.Legal
import Bohrium.Library.Partition
import Mathlib.Algebra.BigOperators.Ring.Finset

/-! # Branch and bound finds the cheapest partition

One thread, from the mask that merges along every edge. The packed location map puts two vertices
together exactly if the chosen edges connect them, so a smaller mask is a finer partition, and where
merging never makes kernels costlier it costs at least as much: a mask whose cost is not below the
best one rules out every mask below it. Each mask below a task is the task's own or lies below one of
its branches. -/
namespace Bohrium
open Relation Edges
set_option autoImplicit false

/-! ## The location map puts connected vertices together -/

/-- One of the edges goes from `u` to `v`. -/
def Ends (es : List EdgeW) (u v : ℕ) : Prop := ∃ e ∈ es, e.source = u ∧ e.target = v

theorem Ends.mono {es fs : List EdgeW} (h : es ⊆ fs) {u v : ℕ} (huv : EqvGen (Ends es) u v) :
    EqvGen (Ends fs) u v := by
  have hle : Ends es ≤ Ends fs := fun _ _ ⟨e, he, hends⟩ => ⟨e, h he, hends⟩
  exact EqvGen.mono hle u v huv

/-- Where a merge of the root `a` into the root `b` puts a vertex. -/
theorem Settles.iterate_update {loc : ℕ → ℕ} {d : ℕ} (h : Settles loc d) {a b : ℕ} (ha : loc a = a)
    (hb : loc b = b) (v : ℕ) :
    (Function.update loc a b)^[d + 1] v = if loc^[d] v = a then b else loc^[d] v := by
  have hb' : Function.update loc a b b = b := by
    by_cases hab : b = a
    · rw [hab, Function.update_self]
    · rw [Function.update_of_ne hab, hb]
  have key : ∀ d v, loc (loc^[d] v) = loc^[d] v →
      (Function.update loc a b)^[d + 1] v = if loc^[d] v = a then b else loc^[d] v := by
    intro d
    induction d with
    | zero =>
      intro v hv
      rw [Function.iterate_zero_apply] at hv ⊢
      rw [Function.iterate_succ_apply, Function.iterate_zero_apply, Function.update_apply, hv]
    | succ d ih =>
      intro v hv
      rw [Function.iterate_succ_apply] at hv ⊢
      rw [Function.iterate_succ_apply loc]
      by_cases hva : v = a
      · rw [hva, Function.update_self, Function.iterate_fixed hb', ha, Function.iterate_fixed ha, if_pos rfl]
      · rw [Function.update_of_ne hva]
        exact ih _ hv
  exact key d v (h v)

/-- After the merges recorded so far two vertices have the same root exactly if the edges of these
merges connect them. -/
structure Connects (loc : ℕ → ℕ) (done : List EdgeW) : Prop where
  settles : Settles loc done.length
  iff : ∀ u v, loc^[done.length] u = loc^[done.length] v ↔ EqvGen (Ends done) u v

theorem Connects.to_root {loc : ℕ → ℕ} {done : List EdgeW} (h : Connects loc done) (u : ℕ) :
    EqvGen (Ends done) u (loc^[done.length] u) := by
  rw [← h.iff]
  exact (Function.iterate_fixed (h.settles u) _).symm

theorem Connects.step {loc : ℕ → ℕ} {done : List EdgeW} (h : Connects loc done) (e : EdgeW) :
    Connects (Function.update loc (loc^[done.length] e.source) (loc^[done.length] e.target))
      (done ++ [e]) := by
  have hlen : (done ++ [e]).length = done.length + 1 := List.length_append
  have hroot := fun v => h.settles.iterate_update (h.settles e.source) (h.settles e.target) v
  have hset := h.settles.update (loc^[done.length] e.source) (h.settles e.target)
  have hsub : done ⊆ done ++ [e] := List.subset_append_left _ _
  have hedge : EqvGen (Ends (done ++ [e])) e.source e.target :=
    EqvGen.rel _ _ ⟨e, List.mem_append_right _ (List.mem_singleton_self e), rfl, rfl⟩
  refine ⟨hlen ▸ hset, fun u v => ?_⟩
  rw [hlen]
  constructor
  · have hto : ∀ w, EqvGen (Ends (done ++ [e])) w
        ((Function.update loc (loc^[done.length] e.source) (loc^[done.length] e.target))^[done.length + 1] w) := by
      intro w
      have hw := Ends.mono hsub (h.to_root w)
      rw [hroot w]
      split_ifs with ha
      · rw [ha] at hw
        have hsource := (Ends.mono hsub (h.to_root e.source)).symm
        exact ((hw.trans _ _ _ hsource).trans _ _ _ hedge).trans _ _ _ (Ends.mono hsub (h.to_root e.target))
      · exact hw
    intro heq
    exact (heq ▸ hto u).trans _ _ _ (hto v).symm
  · intro huv
    induction huv with
    | rel u v huv =>
      obtain ⟨f, hf, rfl, rfl⟩ := huv
      rw [hroot, hroot]
      rcases List.mem_append.mp hf with hf | hf
      · rw [(h.iff _ _).mpr (EqvGen.rel _ _ ⟨f, hf, rfl, rfl⟩)]
      · rw [List.mem_singleton.mp hf, if_pos rfl]
        split_ifs <;> rfl
    | refl u => rfl
    | symm u v _ ih => exact ih.symm
    | trans u v w _ _ ih₁ ih₂ => exact ih₁.trans ih₂

theorem connects_foldl (fuel : ℕ) (es done : List EdgeW) (loc : ℕ → ℕ) (h : Connects loc done)
    (hf : done.length + es.length ≤ fuel) :
    Connects (es.foldl (fun loc e => Function.update loc (findLoc fuel loc e.source)
      (findLoc fuel loc e.target)) loc) (done ++ es) := by
  induction es generalizing loc done with
  | nil => simpa using h
  | cons e es ih =>
    rw [List.length_cons] at hf
    have hfind : ∀ v, findLoc fuel loc v = loc^[done.length] v := fun v => by
      rw [findLoc_eq_iterate, h.settles.mono (by omega)]
    have hnext := ih (done ++ [e]) _ (h.step e) (by simp; omega)
    rw [List.append_assoc, List.singleton_append] at hnext
    rw [List.foldl_cons, hfind, hfind]
    exact hnext

/-- Two vertices are put together exactly if the edges connect them. -/
theorem locMap_eq_iff (es : List EdgeW) (u v : ℕ) : locMap es u = locMap es v ↔ EqvGen (Ends es) u v := by
  have hid : Connects id [] := by
    refine ⟨fun _ => rfl, fun u v => ⟨fun h => ?_, fun h => ?_⟩⟩
    · rw [show u = v from h]
      exact EqvGen.refl v
    · induction h with
      | rel u v huv =>
        obtain ⟨e, he, _⟩ := huv
        cases he
      | refl u => rfl
      | symm u v _ ih => exact ih.symm
      | trans u v w _ _ ih₁ ih₂ => exact ih₁.trans ih₂
  have h := connects_foldl es.length es [] id hid (by simp)
  rw [List.nil_append] at h
  rw [← h.iff]
  unfold locMap
  rw [findLoc_eq_iterate, findLoc_eq_iterate, ← Function.iterate_succ_apply, ← Function.iterate_succ_apply,
    h.settles.mono (Nat.le_succ _), h.settles.mono (Nat.le_succ _)]

/-! ## What a mask costs -/

/-- The edges that a mask chooses. -/
def chosen (edges2explore : List EdgeW) (mask : List Bool) : List EdgeW :=
  ((edges2explore.zip mask).filter (·.2)).map (·.1)

namespace GraphDW

section
variable (boost : Boost) (model : FuseModel) (l : List BhInstruction) (g : GraphDW)

/-- The vertices in the order in which `fuse_mask` adds their instructions. -/
def writeOrder : List ℕ := ((boost.topologicalSort g.numVertices g.edgesD).getD []).reverse

/-- The instructions of a set of vertices in that order. -/
def membersOf (S : Finset ℕ) : List ℕ :=
  ((g.writeOrder boost).filter (· ∈ S)).flatMap fun u => (g.kernel u).instrIndexes

/-- The kernel that the vertices of a set are merged into. -/
def mergedKernel (S : Finset ℕ) : BhIrKernel := (g.membersOf boost S).foldl (BhIrKernel.addInstr l) {}

/-- The cost of the kernels when the vertices that `loc` sends to one place are merged. -/
def partitionCost (loc : ℕ → ℕ) : ℕ :=
  Partition.cost (fun S => (g.mergedKernel boost l S).cost) (Finset.range g.numVertices) loc

/-- Merging two kernels never makes them costlier. -/
def MergingSaves : Prop := Partition.Subadditive fun S => (g.mergedKernel boost l S).cost

/-- The partition may be used: every merged kernel passes the test instruction by instruction, and the
dependencies between the blocks have no cycle. -/
structure Allowed (loc : ℕ → ℕ) : Prop where
  fusible : ∀ c, fusibleOneByOne model l {}
    (g.membersOf boost (Partition.block (Finset.range g.numVertices) loc c)) = true
  acyclic : Acyclic (Image loc (Adj g.edgesD))

/-- The vertices that `loc` puts together are those that the edges connect. -/
def Contracts (es : List EdgeW) (loc : ℕ → ℕ) : Prop :=
  ∀ u < g.numVertices, ∀ v < g.numVertices, loc u = loc v ↔ EqvGen (Ends es) u v

end

variable {boost : Boost} {model : FuseModel} {l : List BhInstruction} {g : GraphDW}

theorem cost_mergedKernel_empty : (g.mergedKernel boost l ∅).cost = 0 := by
  simp [mergedKernel, membersOf, BhIrKernel.cost]

/-- A sum over the vertices that stay is a sum over the blocks. -/
theorem sum_stay {n : ℕ} {loc : ℕ → ℕ} (hidem : ∀ v, loc (loc v) = loc v) (hlt : ∀ v < n, loc v < n)
    (f : ℕ → ℕ) : (((List.range n).filter fun v => loc v = v).map f).sum = ∑ c ∈ (Finset.range n).image loc, f c := by
  have himage : (Finset.range n).image loc = ((List.range n).filter fun v => loc v = v).toFinset := by
    ext c
    simp only [Finset.mem_image, Finset.mem_range, List.mem_toFinset, List.mem_filter, List.mem_range,
      decide_eq_true_eq]
    constructor
    · rintro ⟨v, hv, rfl⟩
      exact ⟨hlt v hv, hidem v⟩
    · rintro ⟨hc, hloc⟩
      exact ⟨c, hc, hloc⟩
  rw [himage, List.sum_toFinset f (List.nodup_range.filter _)]

theorem sum_map_ite {α : Type} (p : α → Prop) [DecidablePred p] (f : α → ℤ) (xs : List α) :
    (xs.map fun x => if p x then f x else 0).sum = ((xs.filter p).map f).sum := by
  induction xs with
  | nil => rfl
  | cons x xs ih =>
    rw [List.map_cons, List.sum_cons, ih, List.filter_cons]
    by_cases hx : p x
    · simp [hx]
    · simp [hx]

section
variable {order : List ℕ} (hsort : boost.topologicalSort g.numVertices g.edgesD = some order)
  (hperm : order.Perm (List.range g.numVertices))
include hsort hperm

/-- The instructions that `fuse_mask` puts into one kernel are those of a block. -/
theorem members_eq (loc : ℕ → ℕ) (v : ℕ) :
    ((order.reverse.filter fun u => loc u == v).flatMap fun u => (g.kernel u).instrIndexes) =
      g.membersOf boost (Partition.block (Finset.range g.numVertices) loc v) := by
  unfold membersOf writeOrder
  rw [hsort, Option.getD_some]
  refine congrArg (List.flatMap _) (List.filter_congr fun u hu => ?_)
  have hun := List.mem_range.mp (hperm.mem_iff.mp (List.mem_reverse.mp hu))
  rw [Bool.eq_iff_iff, beq_iff_eq, decide_eq_true_eq, Partition.mem_block, Finset.mem_range]
  exact ⟨fun h => ⟨hun, h⟩, And.right⟩

end

/-- What `fuse_mask` returns. -/
theorem Sound.fuseMask_spec (boost : Boost) (model : FuseModel) (hs : g.Sound l) (bestCost : ℤ) {edges2explore : List EdgeW}
    (hes : ∀ e ∈ edges2explore, e.source < g.numVertices ∧ e.target < g.numVertices) (mask : List Bool) :
    ∃ r, Bohrium.fuseMask boost model l bestCost edges2explore g mask = some r ∧
      r.1 = g.partitionCost boost l (locMap (chosen edges2explore mask)) ∧
      (r.2.1 = true ↔ r.1 < bestCost ∧ g.Allowed boost model l (locMap (chosen edges2explore mask))) ∧
      (r.2.1 = true → dagCost r.2.2 = r.1) := by
  obtain ⟨order, hsort, hperm, htopo⟩ := boost.topologicalSort_acyclic _ _ hs.inRange hs.valid.acyclic
  have hes' : ∀ e ∈ chosen edges2explore mask, e.source < g.numVertices ∧ e.target < g.numVertices := by
    intro e he
    obtain ⟨p, hp, rfl⟩ := List.mem_map.mp he
    exact hes _ (List.of_mem_zip (List.mem_filter.mp hp).1).1
  have hlt : ∀ v < g.numVertices, _ := fun v hv => locMap_lt hes' hv
  have hidem := locMap_idem (chosen edges2explore mask)
  unfold Bohrium.fuseMask
  rw [hsort, Option.map_some]
  refine ⟨_, rfl, ?_⟩
  revert hlt hidem
  rw [show ((edges2explore.zip mask).filter (·.2)).map (·.1) = chosen edges2explore mask from rfl]
  generalize locMap (chosen edges2explore mask) = loc
  intro hlt hidem
  simp only [members_eq hsort hperm]
  have hcost : (((List.range g.numVertices).filter fun v => loc v = v).map fun v =>
      (((g.membersOf boost (Partition.block (Finset.range g.numVertices) loc v)).foldl
        (BhIrKernel.addInstr l) {}).cost : ℤ)).sum = g.partitionCost boost l loc := by
    rw [partitionCost, Partition.cost, ← sum_stay hidem hlt, Nat.cast_list_sum, List.map_map]
    rfl
  rw [hcost]
  have hfus : ((List.range g.numVertices).all fun v => fusibleOneByOne model l {}
      (g.membersOf boost (Partition.block (Finset.range g.numVertices) loc v))) = true ↔
      ∀ c, fusibleOneByOne model l {}
        (g.membersOf boost (Partition.block (Finset.range g.numVertices) loc c)) = true := by
    rw [List.all_eq_true]
    refine ⟨fun h c => ?_, fun h v _ => h v⟩
    by_cases hc : c < g.numVertices
    · exact h c (List.mem_range.mpr hc)
    · have hempty : Partition.block (Finset.range g.numVertices) loc c = ∅ := by
        refine Finset.filter_eq_empty_iff.mpr fun u hu hloc => hc ?_
        exact hloc ▸ hlt u (Finset.mem_range.mp hu)
      rw [hempty]
      simp [membersOf, fusibleOneByOne]
  split_ifs with hcut
  · refine ⟨rfl, ⟨fun h => ?_, fun h => ?_⟩, fun h => ?_⟩
    · cases h
    · simp only [Bool.or_eq_true, decide_eq_true_eq, Bool.not_eq_true', ← Bool.not_eq_true, hfus] at hcut
      rcases hcut with hle | hnot
      · have := h.1
        dsimp only at this
        omega
      · exact absurd h.2.fusible hnot
    · cases h
  · simp only [Bool.or_eq_true, decide_eq_true_eq, Bool.not_eq_true', not_or, Bool.not_eq_false, hfus,
      not_le] at hcut
    have hin : InRange g.numVertices ((List.range g.numVertices).foldl (relocate g.numVertices loc) g.edgesD) :=
      (relocated_foldl hidem hlt hs.inRange (fun x y => hs.edge_ne) _ (le_refl _)).inRange
    have hadj : Adj ((List.range g.numVertices).foldl (relocate g.numVertices loc) g.edgesD) =
        Image loc (Adj g.edgesD) := by
      funext x y
      exact propext (mem_foldl_relocate hidem hlt hs.inRange (fun x y => hs.edge_ne) x y)
    refine ⟨rfl, ?_, fun _ => ?_⟩
    · have hiff : (boost.topologicalSort g.numVertices
          ((List.range g.numVertices).foldl (relocate g.numVertices loc) g.edgesD)).isSome = true ↔
          Acyclic (Image loc (Adj g.edgesD)) := by
        rw [← hadj]
        constructor
        · intro h
          by_contra hcyc
          rw [boost.topologicalSort_cyclic _ _ hin hcyc] at h
          cases h
        · intro h
          obtain ⟨order', hsort', _⟩ := boost.topologicalSort_acyclic _ _ hin h
          rw [hsort']
          rfl
      dsimp only [numVertices] at hiff ⊢
      rw [List.length_map, List.length_range, hiff]
      exact ⟨fun h => ⟨hcut.1, hcut.2, h⟩, fun h => h.2.acyclic⟩
    · dsimp only [dagCost]
      rw [← hcost, ← sum_map_ite, List.map_map]
      refine congrArg List.sum (List.map_congr_left fun v _ => ?_)
      rw [Function.comp_apply]
      split_ifs
      · rfl
      · rfl

end GraphDW

/-! ## The masks below a task -/

/-- The mask agrees with the task's in front of the offset, and chooses no edge that the task's does
not choose. -/
def below (task : Task) (mask : List Bool) : Bool :=
  mask.length == task.1.length && mask.take task.2 == task.1.take task.2 &&
    (mask.zip task.1).all fun p => !p.1 || p.2

/-- From the offset on the task's mask chooses every edge. -/
def Fresh (task : Task) : Prop := ∀ i, task.2 ≤ i → i < task.1.length → task.1[i]? = some true

section
variable {task : Task} {mask : List Bool}

theorem chosen_subset (edges2explore : List EdgeW) (h : below task mask = true) :
    chosen edges2explore mask ⊆ chosen edges2explore task.1 := by
  simp only [below, Bool.and_eq_true, beq_iff_eq, List.all_eq_true, Bool.or_eq_true, Bool.not_eq_true'] at h
  obtain ⟨⟨hlen, _⟩, hle⟩ := h
  intro e he
  obtain ⟨⟨e, b⟩, hp, rfl⟩ := List.mem_map.mp he
  obtain ⟨hmem, htrue⟩ := List.mem_filter.mp hp
  obtain ⟨i, hi, hget⟩ := List.getElem_of_mem hmem
  rw [List.length_zip] at hi
  rw [List.getElem_zip, Prod.mk.injEq] at hget
  obtain ⟨hei, hbi⟩ := hget
  have hmi : i < mask.length := by omega
  have hti : i < task.1.length := by omega
  have hpair : (mask[i], task.1[i]) ∈ mask.zip task.1 := by
    refine List.mem_iff_getElem.mpr ⟨i, by rw [List.length_zip]; omega, ?_⟩
    rw [List.getElem_zip]
  have htask : task.1[i] = true := by
    rcases hle _ hpair with hfalse | htrue'
    · have hb : b = false := hbi.symm.trans hfalse
      rw [hb] at htrue
      cases htrue
    · exact htrue'
  refine List.mem_map.mpr ⟨(e, true), List.mem_filter.mpr ⟨?_, rfl⟩, rfl⟩
  refine List.mem_iff_getElem.mpr ⟨i, by rw [List.length_zip]; omega, ?_⟩
  rw [List.getElem_zip, hei, htask]

/-- For a fresh task the agreement in front of the offset is enough. -/
theorem below_iff (hf : Fresh task) :
    below task mask = true ↔ mask.length = task.1.length ∧ mask.take task.2 = task.1.take task.2 := by
  simp only [below, Bool.and_eq_true, beq_iff_eq]
  refine ⟨And.left, fun h => ⟨h, List.all_eq_true.mpr fun p hp => ?_⟩⟩
  obtain ⟨i, hi, rfl⟩ := List.getElem_of_mem hp
  rw [List.length_zip] at hi
  rw [List.getElem_zip]
  have hti : i < task.1.length := by omega
  by_cases hoff : i < task.2
  · have hsame : mask[i]? = task.1[i]? := by
      rw [← List.getElem?_take_of_lt hoff, h.2, List.getElem?_take_of_lt hoff]
    rw [List.getElem?_eq_getElem (by omega), List.getElem?_eq_getElem hti, Option.some.injEq] at hsame
    rw [hsame]
    simp
  · have htrue := hf i (by omega) hti
    rw [List.getElem?_eq_getElem hti, Option.some.injEq] at htrue
    rw [htrue]
    simp

theorem fresh_branch (hf : Fresh task) {i : ℕ} (hi : task.2 ≤ i) : Fresh (task.1.set i false, i + 1) := by
  intro j hj hlt
  rw [List.length_set] at hlt
  rw [List.getElem?_set_ne (by omega)]
  exact hf j (by omega) hlt

theorem fresh_branches (hf : Fresh task) : ∀ t ∈ branches task, Fresh t := by
  intro t ht
  obtain ⟨i, hi, rfl⟩ := List.mem_map.mp ht
  exact fresh_branch hf (by simpa using (List.mem_filter.mp (List.mem_reverse.mp hi)).2)

theorem filter_range_ge (n o : ℕ) : ((List.range n).filter fun i => o ≤ i) = List.range' o (n - o) := by
  by_cases hon : o ≤ n
  · obtain ⟨k, rfl⟩ := Nat.exists_eq_add_of_le hon
    have hsplit : List.range (o + k) = List.range o ++ List.range' o k := by
      rw [List.range_eq_range', List.range_eq_range']
      simpa using (List.range'_append_1 (s := 0) (m := o) (n := k)).symm
    rw [hsplit, List.filter_append, Nat.add_sub_cancel_left]
    have h1 : ((List.range o).filter fun i => o ≤ i) = [] := by
      refine List.filter_eq_nil_iff.mpr fun i hi => ?_
      have := List.mem_range.mp hi
      simpa using this
    have h2 : ((List.range' o k).filter fun i => o ≤ i) = List.range' o k := by
      refine List.filter_eq_self.mpr fun i hi => ?_
      simpa using (List.mem_range'_1.mp hi).1
    rw [h1, h2, List.nil_append]
  · have hnone : ((List.range n).filter fun i => o ≤ i) = [] := by
      refine List.filter_eq_nil_iff.mpr fun i hi => ?_
      have := List.mem_range.mp hi
      simp only [decide_eq_true_eq]
      omega
    rw [hnone, show n - o = 0 by omega]
    rfl

theorem take_succ_eq_iff {xs ys : List Bool} {i : ℕ} (hx : i < xs.length) (hy : i < ys.length) :
    xs.take (i + 1) = ys.take (i + 1) ↔ xs.take i = ys.take i ∧ xs[i] = ys[i] := by
  rw [← List.take_concat_get' xs i hx, ← List.take_concat_get' ys i hy]
  constructor
  · intro h
    obtain ⟨h1, h2⟩ := List.append_inj' h rfl
    exact ⟨h1, List.singleton_inj.mp h2⟩
  · rintro ⟨h1, h2⟩
    rw [h1, h2]

/-- The mask lies below the branch that takes away the first edge it does not choose. -/
theorem below_branch_iff (hf : Fresh task) {i : ℕ} (hi : task.2 ≤ i) (hlt : i < task.1.length)
    (hlen : mask.length = task.1.length) : below (task.1.set i false, i + 1) mask = true ↔
      mask.take i = task.1.take i ∧ mask[i]? = some false := by
  have hmi : i < mask.length := hlen ▸ hlt
  rw [below_iff (fresh_branch hf hi)]
  dsimp only
  rw [take_succ_eq_iff hmi (by simpa using hlt), List.getElem_set_self, List.take_set_of_le (le_refl i),
    List.length_set, List.getElem?_eq_getElem hmi, Option.some.injEq]
  exact ⟨And.right, fun h => ⟨hlen, h⟩⟩

/-- Each mask below a task is the task's own or lies below exactly one of its branches. -/
theorem countP_branches (hf : Fresh task) (hlen : mask.length = task.1.length) :
    (branches task).countP (below · mask) + (if mask = task.1 then 1 else 0) =
      if below task mask = true then 1 else 0 := by
  have hcount : ∀ k o, o + k = task.1.length → task.2 ≤ o →
      (List.range' o k).countP (fun i => below (task.1.set i false, i + 1) mask) +
        (if mask = task.1 then 1 else 0) = if mask.take o = task.1.take o then 1 else 0 := by
    intro k
    induction k with
    | zero =>
      intro o ho _
      rw [List.take_of_length_le (by omega), List.take_of_length_le (by omega)]
      simp
    | succ k ih =>
      intro o ho hoff
      have hlt : o < task.1.length := by omega
      have hmlt : o < mask.length := by omega
      have hnext := ih (o + 1) (by omega) (by omega)
      have htrue := hf o hoff hlt
      rw [List.getElem?_eq_getElem hlt, Option.some.injEq] at htrue
      have hbranch := below_branch_iff hf hoff hlt hlen
      rw [List.getElem?_eq_getElem hmlt, Option.some.injEq] at hbranch
      simp only [take_succ_eq_iff hmlt hlt, htrue] at hnext
      rw [List.range'_succ, List.countP_cons]
      generalize (if mask = task.1 then 1 else 0) = own at hnext ⊢
      by_cases hQ : mask.take o = task.1.take o
      · rw [if_pos hQ]
        cases hm : mask[o] with
        | true =>
          have hno : ¬ below (task.1.set o false, o + 1) mask = true := fun h => by
            rw [(hbranch.mp h).2] at hm
            cases hm
          rw [if_pos ⟨hQ, hm⟩] at hnext
          rw [if_neg hno]
          omega
        | false =>
          rw [if_neg (fun h => by rw [h.2] at hm; cases hm)] at hnext
          rw [if_pos (hbranch.mpr ⟨hQ, hm⟩)]
          omega
      · rw [if_neg hQ]
        rw [if_neg fun h => hQ h.1] at hnext
        rw [if_neg fun h => hQ (hbranch.mp h).1]
        omega
  have hmap : (branches task).countP (below · mask) =
      (List.range' task.2 (task.1.length - task.2)).countP fun i => below (task.1.set i false, i + 1) mask := by
    unfold branches
    rw [filter_range_ge, List.countP_map, List.countP_reverse]
    rfl
  rw [hmap]
  by_cases hoff : task.2 ≤ task.1.length
  · rw [hcount _ _ (by omega) (le_refl _)]
    simp only [below_iff hf, hlen, true_and]
  · rw [show task.1.length - task.2 = 0 by omega]
    simp only [below_iff hf, hlen, true_and, List.take_of_length_le (show mask.length ≤ task.2 by omega),
      List.take_of_length_le (show task.1.length ≤ task.2 by omega)]
    simp

end

/-! ## The run of the search -/

/-- What becomes of a task: its cost is not below the best one, its graph is the new best one, or its
branches are queued. -/
inductive Outcome
  | pruned | accepted | branched
  deriving DecidableEq

/-- The task accounts for the mask: it evaluated this mask and branched, or the mask lies below it and
it ended there. -/
def accounts (mask : List Bool) (p : Task × Outcome) : Bool :=
  if p.2 = .branched then mask == p.1.1 else below p.1 mask

section
variable (boost : Boost) (model : FuseModel) (l : List BhInstruction)

/-- The tasks in the order in which they are taken, with what became of them. -/
def searchTrace (edges2explore : List EdgeW) (g : GraphDW) (race : ℕ → Search → Race) :
    ℕ → Search → List (Task × Outcome)
  | 0, _ => []
  | fuel + 1, s =>
    match s.tasks[(race fuel s).pick % s.tasks.length]? with
    | none => []
    | some task =>
      match fuseMask boost model l ((race fuel s).bound s.bestCost) edges2explore g task.1,
        searchStep boost model l edges2explore g (race fuel s) s with
      | some r, some s' => (task, if (race fuel s).seen s.bestCost ≤ r.1 then .pruned
          else if r.2.1 then .accepted else .branched) :: searchTrace edges2explore g race fuel s'
      | _, _ => []

end

namespace GraphDW
variable (boost : Boost) (model : FuseModel) {l : List BhInstruction} {g : GraphDW}
  {edges2explore : List EdgeW}

/-- One round: a task is taken, its mask evaluated, and one of three things done. -/
theorem Sound.searchStep_cases (hs : g.Sound l)
    (hes : ∀ e ∈ edges2explore, e.source < g.numVertices ∧ e.target < g.numVertices) (race : Race)
    {s : Search} (hne : s.tasks ≠ []) : ∃ task rest r,
      s.tasks[race.pick % s.tasks.length]? = some task ∧ s.tasks.Perm (task :: rest) ∧
      Bohrium.fuseMask boost model l (race.bound s.bestCost) edges2explore g task.1 = some r ∧
      searchStep boost model l edges2explore g race s =
        some (if race.seen s.bestCost ≤ r.1 then { s with tasks := rest }
          else if r.2.1 then ⟨rest, r.1, r.2.2⟩ else { s with tasks := rest ++ branches task }) := by
  have hpick : race.pick % s.tasks.length < s.tasks.length := Nat.mod_lt _ (List.length_pos_iff.mpr hne)
  obtain ⟨r, hr, _⟩ := hs.fuseMask_spec boost model (race.bound s.bestCost) hes
    s.tasks[race.pick % s.tasks.length].1
  refine ⟨_, s.tasks.eraseIdx (race.pick % s.tasks.length), r, List.getElem?_eq_getElem hpick,
    (List.getElem_cons_eraseIdx_perm hpick).symm, hr, ?_⟩
  unfold searchStep
  rw [List.getElem?_eq_getElem hpick]
  dsimp only
  rw [hr, Option.map_some]

/-- Every mask below a waiting task is accounted for once. -/
theorem Sound.countP_searchTrace (hs : g.Sound l)
    (hes : ∀ e ∈ edges2explore, e.source < g.numVertices ∧ e.target < g.numVertices)
    (race : ℕ → Search → Race) (mask : List Bool) (fuel : ℕ) {s : Search} (hf : searchFuel s.tasks ≤ fuel)
    (htasks : ∀ t ∈ s.tasks, Fresh t ∧ mask.length = t.1.length) :
    (searchTrace boost model l edges2explore g race fuel s).countP (accounts mask) =
      s.tasks.countP (below · mask) := by
  induction fuel generalizing s with
  | zero =>
    have hend : searchLoop boost model l edges2explore g race 0 s = some s := rfl
    have hnil := searchLoop_tasks boost model race 0 hf hend
    rw [hnil]
    rfl
  | succ fuel ih =>
    rw [searchTrace]
    by_cases hne : s.tasks = []
    · rw [hne]
      rfl
    obtain ⟨task, rest, r, hget, hperm, hr, hstep⟩ := hs.searchStep_cases boost model hes
      (race fuel s) hne
    have hfuel := searchFuel_step boost model (race fuel s) hne hstep
    obtain ⟨hfresh, hlen⟩ := htasks task (hperm.mem_iff.mpr List.mem_cons_self)
    have hrest : ∀ t ∈ rest, Fresh t ∧ mask.length = t.1.length := fun t ht =>
      htasks t (hperm.mem_iff.mpr (List.mem_cons_of_mem _ ht))
    rw [hget]
    dsimp only
    rw [hr, hstep]
    dsimp only
    rw [List.countP_cons, hperm.countP_eq, List.countP_cons]
    by_cases hseen : (race fuel s).seen s.bestCost ≤ r.1
    · rw [if_pos hseen] at hfuel ⊢
      rw [if_pos hseen, ih (by omega) hrest]
      rfl
    · rw [if_neg hseen] at hfuel ⊢
      rw [if_neg hseen]
      by_cases huse : r.2.1 = true
      · rw [if_pos huse] at hfuel ⊢
        rw [if_pos huse, ih (by omega) hrest]
        rfl
      · rw [if_neg huse] at hfuel ⊢
        rw [if_neg huse, ih (by omega) ?_]
        · have hsplit := countP_branches hfresh hlen
          rw [List.countP_append]
          simp only [accounts, if_true, beq_iff_eq]
          omega
        · intro t ht
          rcases List.mem_append.mp ht with ht | ht
          · exact hrest t ht
          · refine ⟨fresh_branches hfresh t ht, ?_⟩
            obtain ⟨i, _, rfl⟩ := List.mem_map.mp ht
            rw [List.length_set]
            exact hlen

end GraphDW

/-! ## Optimality -/

namespace GraphDW
variable {boost : Boost} {model : FuseModel} {l : List BhInstruction} {g : GraphDW}
  {edges2explore : List EdgeW}

/-- A mask costs at least as much as the task it lies below. -/
theorem MergingSaves.partitionCost_le (hsave : g.MergingSaves boost l) (edges2explore : List EdgeW)
    {task : Task} {mask : List Bool} (h : below task mask = true) :
    g.partitionCost boost l (locMap (chosen edges2explore task.1)) ≤
      g.partitionCost boost l (locMap (chosen edges2explore mask)) := by
  refine Partition.cost_le_of_coarser hsave cost_mergedKernel_empty fun u _ v _ huv => ?_
  rw [locMap_eq_iff] at huv ⊢
  exact Ends.mono (chosen_subset edges2explore h) huv

/-- Whether a partition may be used depends on its blocks only. -/
theorem Allowed.congr (hs : g.Sound l) {loc loc' : ℕ → ℕ} (h : g.Allowed boost model l loc)
    (heq : ∀ u < g.numVertices, ∀ v < g.numVertices, loc u = loc v ↔ loc' u = loc' v) :
    g.Allowed boost model l loc' := by
  refine ⟨fun c => ?_, ?_⟩
  · by_cases hempty : Partition.block (Finset.range g.numVertices) loc' c = ∅
    · rw [hempty]
      simp [membersOf, fusibleOneByOne]
    · obtain ⟨u, hu⟩ := Finset.nonempty_iff_ne_empty.mpr hempty
      obtain ⟨hun, rfl⟩ := Partition.mem_block.mp hu
      have hsame : Partition.block (Finset.range g.numVertices) loc' (loc' u) =
          Partition.block (Finset.range g.numVertices) loc (loc u) := by
        refine Finset.filter_congr fun v hv => ?_
        exact (heq v (Finset.mem_range.mp hv) u (Finset.mem_range.mp hun)).symm
      rw [hsame]
      exact h.fusible _
  · refine Acyclic.image_congr {v | v < g.numVertices} (fun u v huv => ?_) heq h.acyclic
    exact hs.inRange _ huv

/-- The search so far: the best cost is that of the best graph and at most the first one, and a
partition that may be used and is cheaper lies below a task that waits. -/
structure Exact (boost : Boost) (model : FuseModel) (l : List BhInstruction) (g : GraphDW)
    (edges2explore : List EdgeW) (firstCost : ℤ) (s : Search) : Prop where
  cost : dagCost s.bestDag = s.bestCost
  first : s.bestCost ≤ firstCost
  fresh : ∀ t ∈ s.tasks, Fresh t
  length : ∀ t ∈ s.tasks, t.1.length = edges2explore.length
  best : ∀ mask : List Bool, mask.length = edges2explore.length →
    g.Allowed boost model l (locMap (chosen edges2explore mask)) →
    s.bestCost ≤ g.partitionCost boost l (locMap (chosen edges2explore mask)) ∨
      ∃ t ∈ s.tasks, below t mask = true

theorem Exact.step (hs : g.Sound l)
    (hes : ∀ e ∈ edges2explore, e.source < g.numVertices ∧ e.target < g.numVertices)
    (hsave : g.MergingSaves boost l) {firstCost : ℤ} {s : Search}
    (h : Exact boost model l g edges2explore firstCost s) (tasks : ℕ) (hne : s.tasks ≠ []) :
    ∃ s', searchStep boost model l edges2explore g (oneThread tasks) s = some s' ∧
      Exact boost model l g edges2explore firstCost s' := by
  obtain ⟨task, rest, r, _, hperm, hr, hstep⟩ := hs.searchStep_cases boost model hes (oneThread tasks) hne
  obtain ⟨r', hr', hcost, huse, hdag⟩ := hs.fuseMask_spec boost model s.bestCost hes task.1
  obtain rfl := Option.some.inj (hr.symm.trans hr')
  have htask : task ∈ s.tasks := hperm.mem_iff.mpr List.mem_cons_self
  have hrest : ∀ t ∈ rest, t ∈ s.tasks := fun t ht => hperm.mem_iff.mpr (List.mem_cons_of_mem _ ht)
  refine ⟨_, hstep, ?_⟩
  change Exact _ _ _ _ _ _ (if s.bestCost ≤ r.1 then _ else _)
  -- a mask below the task costs at least what the task's mask costs
  have hbelow : ∀ mask, below task mask = true →
      r.1 ≤ g.partitionCost boost l (locMap (chosen edges2explore mask)) := by
    intro mask hmask
    rw [hcost]
    exact_mod_cast hsave.partitionCost_le edges2explore hmask
  have hsplit : ∀ mask : List Bool, mask.length = edges2explore.length →
      g.Allowed boost model l (locMap (chosen edges2explore mask)) →
      s.bestCost ≤ g.partitionCost boost l (locMap (chosen edges2explore mask)) ∨
        below task mask = true ∨ ∃ t ∈ rest, below t mask = true := by
    intro mask hlen hallowed
    refine (h.best mask hlen hallowed).imp_right ?_
    rintro ⟨t, ht, hbt⟩
    rcases List.mem_cons.mp (hperm.mem_iff.mp ht) with rfl | ht
    · exact Or.inl hbt
    · exact Or.inr ⟨t, ht, hbt⟩
  split_ifs with hseen hused
  · refine ⟨h.cost, h.first, fun t ht => h.fresh t (hrest t ht), fun t ht => h.length t (hrest t ht), ?_⟩
    intro mask hlen hallowed
    rcases hsplit mask hlen hallowed with hle | hmask | hmore
    · exact Or.inl hle
    · exact Or.inl (hseen.trans (hbelow mask hmask))
    · exact Or.inr hmore
  · have hlt : r.1 < s.bestCost := (huse.mp hused).1
    refine ⟨hdag hused, hlt.le.trans h.first, fun t ht => h.fresh t (hrest t ht),
      fun t ht => h.length t (hrest t ht), ?_⟩
    intro mask hlen hallowed
    rcases hsplit mask hlen hallowed with hle | hmask | hmore
    · exact Or.inl (hlt.le.trans hle)
    · exact Or.inl (hbelow mask hmask)
    · exact Or.inr hmore
  · refine ⟨h.cost, h.first, ?_, ?_, ?_⟩
    · intro t ht
      rcases List.mem_append.mp ht with ht | ht
      · exact h.fresh t (hrest t ht)
      · exact fresh_branches (h.fresh task htask) t ht
    · intro t ht
      rcases List.mem_append.mp ht with ht | ht
      · exact h.length t (hrest t ht)
      · obtain ⟨i, _, rfl⟩ := List.mem_map.mp ht
        rw [List.length_set]
        exact h.length task htask
    · intro mask hlen hallowed
      rcases hsplit mask hlen hallowed with hle | hmask | ⟨t, ht, hbt⟩
      · exact Or.inl hle
      · -- the task's own mask may not be used, so the mask lies below a branch
        have hne' : mask ≠ task.1 := by
          rintro rfl
          exact hused (huse.mpr ⟨lt_of_not_ge hseen, hallowed⟩)
        have hcount := countP_branches (h.fresh task htask) (hlen.trans (h.length task htask).symm)
        rw [if_neg hne', if_pos hmask, Nat.add_zero] at hcount
        obtain ⟨t, ht, hbt⟩ := List.countP_pos_iff.mp (hcount ▸ Nat.zero_lt_one)
        exact Or.inr ⟨t, List.mem_append_right _ ht, hbt⟩
      · exact Or.inr ⟨t, List.mem_append_left _ ht, hbt⟩

theorem Exact.loop (hs : g.Sound l)
    (hes : ∀ e ∈ edges2explore, e.source < g.numVertices ∧ e.target < g.numVertices)
    (hsave : g.MergingSaves boost l) {firstCost : ℤ} (fuel : ℕ) {s : Search}
    (h : Exact boost model l g edges2explore firstCost s) :
    ∃ s', searchLoop boost model l edges2explore g (fun _ s => oneThread s.tasks.length) fuel s = some s' ∧
      Exact boost model l g edges2explore firstCost s' := by
  induction fuel generalizing s with
  | zero => exact ⟨s, rfl, h⟩
  | succ fuel ih =>
    rw [searchLoop]
    split_ifs with hne
    · exact ⟨s, rfl, h⟩
    · obtain ⟨s₁, hs₁, h₁⟩ := h.step hs hes hsave s.tasks.length hne
      rw [hs₁, Option.bind_some]
      exact ih h₁

end GraphDW

/-! ## Which pairs of instructions were tested -/

/-- `check_fusible` accepted the two instructions, in one order or the other. -/
def Tested (model : FuseModel) (l : List BhInstruction) (i j : ℕ) : Prop :=
  checkFusible model (instrAt l i) (instrAt l j) = true ∨ checkFusible model (instrAt l j) (instrAt l i) = true

theorem Tested.symm {model : FuseModel} {l : List BhInstruction} {i j : ℕ} (h : Tested model l i j) :
    Tested model l j i := Or.symm h

theorem tested_of_fusibleOneByOne {model : FuseModel} {l : List BhInstruction} (is : List ℕ) (k : BhIrKernel)
    (h : fusibleOneByOne model l k is = true) :
    (is.Pairwise (Tested model l)) ∧ ∀ i ∈ k.instrIndexes, ∀ j ∈ is, Tested model l i j := by
  induction is generalizing k with
  | nil => exact ⟨List.Pairwise.nil, by simp⟩
  | cons idx is ih =>
    rw [fusibleOneByOne, Bool.and_eq_true, BhIrKernel.fusibleInstr, List.all_eq_true] at h
    obtain ⟨hpair, hcross⟩ := ih (k.addInstr l idx) h.2
    simp only [BhIrKernel.instrIndexes_addInstr, List.mem_append, List.mem_singleton] at hcross
    refine ⟨List.pairwise_cons.mpr ⟨fun j hj => hcross idx (Or.inr rfl) j hj, hpair⟩, ?_⟩
    intro i hi j hj
    rcases List.mem_cons.mp hj with rfl | hj
    · exact Or.inr (h.1 i hi)
    · exact hcross i (Or.inl hi) j hj

namespace GraphDW
variable {model : FuseModel} {l : List BhInstruction} {g g₀ : GraphDW}

/-- A weight edge joins kernels that were tested against each other. -/
def WeightsTested (model : FuseModel) (l : List BhInstruction) (g : GraphDW) : Prop :=
  ∀ e ∈ g.edgesW, ∀ i ∈ (g.kernel e.source).instrIndexes, ∀ j ∈ (g.kernel e.target).instrIndexes,
    Tested model l i j

/-- Two instructions of one kernel were tested, or stand together in `g₀` already. -/
def KernelsTested (model : FuseModel) (l : List BhInstruction) (g₀ g : GraphDW) : Prop :=
  ∀ v, ∀ i ∈ (g.kernel v).instrIndexes, ∀ j ∈ (g.kernel v).instrIndexes, i ≠ j →
    Tested model l i j ∨ ∃ u, i ∈ (g₀.kernel u).instrIndexes ∧ j ∈ (g₀.kernel u).instrIndexes

theorem WeightsTested.mergeVertices (hs : g.Sound l) (h : WeightsTested model l g) {a b : ℕ} {aBeforeB : Bool}
    (hm : Mergeable g a b aBeforeB) : WeightsTested model l (g.mergeVertices model l a b aBeforeB) := by
  have hother := fun v => (kernel_mergeVertices (l := l) model aBeforeB hm.live_left.lt hm.live_right.lt v).1
  intro e he i hi j hj
  rcases mem_edgesW_mergeVertices model aBeforeB (fun e he => (hs.ends e he).1) he with
    ⟨he', h1, h2, h3, h4⟩ | ⟨v, _, _, hjoin, _, hnn, hval⟩
  · rw [hother e.source h1 h3] at hi
    rw [hother e.target h2 h4] at hj
    exact h e he' i hi j hj
  · rw [hval, mergeCostSavings_nonneg_iff, fusibleKernel_iff] at hnn
    rcases joins_iff.mp hjoin with ⟨hsource, htarget⟩ | ⟨hsource, htarget⟩
    · rw [hsource] at hi
      rw [htarget] at hj
      exact Or.inl (hnn i hi j hj)
    · rw [hsource] at hi
      rw [htarget] at hj
      exact Or.inr (hnn j hj i hi)

theorem KernelsTested.mergeVertices (h : KernelsTested model l g₀ g) {a b : ℕ} {aBeforeB : Bool}
    (hm : Mergeable g a b aBeforeB) (hab : ∀ i ∈ (g.kernel a).instrIndexes, ∀ j ∈ (g.kernel b).instrIndexes,
      Tested model l i j) : KernelsTested model l g₀ (g.mergeVertices model l a b aBeforeB) := by
  intro v i hi j hj hij
  obtain ⟨hother, hka, hkb⟩ := kernel_mergeVertices (l := l) model aBeforeB hm.live_left.lt hm.live_right.lt v
  by_cases hvb : v = b
  · rw [hvb, hkb] at hi
    cases hi
  by_cases hva : v = a
  · have hmem : ∀ x, x ∈ ((g.mergeVertices model l a b aBeforeB).kernel v).instrIndexes →
        x ∈ (g.kernel a).instrIndexes ∨ x ∈ (g.kernel b).instrIndexes := by
      intro x hx
      rw [hva, hka hm.ne] at hx
      split_ifs at hx
      · exact List.mem_append.mp hx
      · exact (List.mem_append.mp hx).symm
    rcases hmem i hi with hi | hi <;> rcases hmem j hj with hj | hj
    · exact h a i hi j hj hij
    · exact Or.inl (hab i hi j hj)
    · exact Or.inl (hab j hj i hi).symm
    · exact h b i hi j hj hij
  · rw [hother hva hvb] at hi hj
    exact h v i hi j hj hij

theorem PartOf.kernelsTested {g' : GraphDW} {vs : List ℕ} (hp : PartOf g' g vs)
    (h : KernelsTested model l g₀ g) : KernelsTested model l g₀ g' := by
  intro v i hi j hj hij
  have hlt : v < vs.length := hp.numVertices_eq ▸ Live.lt (List.ne_nil_of_mem hi)
  rw [hp.kernel_eq hlt] at hi hj
  exact h _ i hi j hj hij

/-- Greedy fusion merges kernels that were tested against each other only. -/
theorem Sound.fuseGreedy_tested (hs : g.Sound l) (hw : WeightsTested model l g) :
    KernelsTested model l g (g.fuseGreedy model l) := by
  have hloop := fuseGreedyLoop_induction model (l := l) (g := g)
    (P := fun g' => g'.Sound l ∧ WeightsTested model l g' ∧ KernelsTested model l g g') (fun g' e he hg' => by
      obtain ⟨hs', hw', hk'⟩ := hg'
      obtain ⟨hne, h1, h2⟩ := hs'.ends e he
      refine ⟨(hs'.greedyStep model hne h1 h2).1, ?_⟩
      rcases greedyStep_cases model hs' hne h1 h2 with ⟨heq, _⟩ | ⟨a, b, heq, hm, hends⟩ <;> rw [heq]
      · exact ⟨fun f hf => hw' f (List.mem_filter.mp hf).1, hk'⟩
      · refine ⟨hw'.mergeVertices hs' hm, hk'.mergeVertices hm ?_⟩
        rcases hends with ⟨rfl, rfl⟩ | ⟨rfl, rfl⟩
        · exact hw' e he
        · exact fun i hi j hj => (hw' e he j hj i hi).symm)
    g.greedyFuel ⟨hs, hw, fun v i hi j hj _ => Or.inr ⟨v, hi, hj⟩⟩
  exact (partOf_removeClearedVertices hloop.1).kernelsTested hloop.2.2

theorem Collapsed.kernelsTested {loc : ℕ → ℕ} {order : List ℕ} {g' : GraphDW}
    (h : Collapsed model l g loc order g') : KernelsTested model l g g' := by
  intro v i hi j hj hij
  have hpair := (tested_of_fusibleOneByOne _ _ (h.fusible v)).1
  have hsymm : Std.Symm (Tested model l) := ⟨fun _ _ => Tested.symm⟩
  exact Or.inl (hpair.forall hi hj hij)

theorem weightsTested_fromBhir (model : FuseModel) (l : List BhInstruction) :
    WeightsTested model l (fromBhir l model) := by
  obtain ⟨_, hweights, _⟩ := fromBhir_induction model l (WeightsTested model l) (fun e he => by cases he) (by
    intro g k h hb _ hx _ hw e he i hi j hj
    rcases hx.newW e he with he' | ⟨v, hv, rfl, hcost⟩
    · obtain ⟨_, h1, h2⟩ := hb.sound.ends e he'
      rw [hx.kernel_old h1.lt] at hi
      rw [hx.kernel_old h2.lt] at hj
      exact hw e he' i hi j hj
    · dsimp only at hi hj
      rw [hx.kernel_old hv] at hi
      rw [hx.kernel_new] at hj
      exact Or.inr (fusibleKernel_iff.mp (mergeCostSavings_nonneg_iff.mp hcost) j hj i hi))
  exact hweights

/-- What the operations of the class keep: the graph is sound, and weight edges join kernels that were
tested against each other. -/
structure Valid (model : FuseModel) (l : List BhInstruction) (g : GraphDW) : Prop where
  sound : g.Sound l
  weights : WeightsTested model l g

/-- The state that the search of `branch_n_bound` starts from without a preloaded mask. -/
def firstSearch (model : FuseModel) (l : List BhInstruction) (edges2explore : List EdgeW) (g : GraphDW) :
    Search :=
  ⟨[(List.replicate edges2explore.length true, 0)], dagCost (g.fuseGreedy model l), g.fuseGreedy model l⟩

/-- One thread in every round. -/
def alone (_ : ℕ) (s : Search) : Race := oneThread s.tasks.length

theorem exact_firstSearch (boost : Boost) (model : FuseModel) (l : List BhInstruction)
    (edges2explore : List EdgeW) (g : GraphDW) : Exact boost model l g edges2explore
      (dagCost (g.fuseGreedy model l)) (firstSearch model l edges2explore g) := by
  have hfresh : Fresh (List.replicate edges2explore.length true, 0) := by
    intro i _ hi
    rw [List.length_replicate] at hi
    exact List.getElem?_replicate_of_lt hi
  refine ⟨rfl, le_refl _, ?_, ?_, ?_⟩
  · intro t ht
    rw [List.mem_singleton.mp ht]
    exact hfresh
  · intro t ht
    rw [List.mem_singleton.mp ht]
    exact List.length_replicate
  · intro mask hlen _
    refine Or.inr ⟨_, List.mem_singleton_self _, (below_iff hfresh).mpr ⟨?_, rfl⟩⟩
    rw [List.length_replicate]
    exact hlen

end GraphDW

open GraphDW in
/-- Branch and bound with one thread and no preloaded mask, on a valid graph where merging never makes
kernels costlier: the search ends, and its graph has no cycle, holds only kernels that passed the test
of the fuse model, and costs no more than the greedy one and than every partition that may be used and
contracts some of the explored edges. Every mask is evaluated and branched once, or lies below exactly
one task that was pruned or accepted. -/
theorem branchNBound_exact (boost : Boost) (model : FuseModel) (l : List BhInstruction) (g : GraphDW)
    (order : ExploreOrder) (hg : g.Valid model l) (hsave : g.MergingSaves boost l) :
    ∃ s best,
      searchLoop boost model l (edgesToExplore order g) g alone
        (searchFuel (firstSearch model l (edgesToExplore order g) g).tasks)
        (firstSearch model l (edgesToExplore order g) g) = some s ∧ s.tasks = [] ∧
      branchNBound boost model l alone (edgesToExplore order g) g
        (List.replicate (edgesToExplore order g).length true) 0 = some best ∧
      Acyclic (Adj best.edgesD) ∧ KernelsTested model l g best ∧
      dagCost best ≤ dagCost (g.fuseGreedy model l) ∧
      (∀ mask loc, mask.length = (edgesToExplore order g).length →
        g.Contracts (chosen (edgesToExplore order g) mask) loc → g.Allowed boost model l loc →
        dagCost best ≤ g.partitionCost boost l loc) ∧
      ∀ mask, mask.length = (edgesToExplore order g).length →
        (searchTrace boost model l (edgesToExplore order g) g alone
          (searchFuel (firstSearch model l (edgesToExplore order g) g).tasks)
          (firstSearch model l (edgesToExplore order g) g)).countP (accounts mask) = 1 := by
  have hs := hg.sound
  have hes : ∀ e ∈ edgesToExplore order g, e.source < g.numVertices ∧ e.target < g.numVertices := by
    intro e he
    obtain ⟨_, h1, h2⟩ := hs.ends e (mem_edgesToExplore he)
    exact ⟨h1.lt, h2.lt⟩
  revert hes
  generalize edgesToExplore order g = es
  intro hes
  have hfirst := exact_firstSearch boost model l es g
  obtain ⟨s, hloop, hexact⟩ := hfirst.loop hs hes hsave (searchFuel (firstSearch model l es g).tasks)
  have hend : s.tasks = [] := searchLoop_tasks boost model alone _ (le_refl _) hloop
  obtain ⟨s', hloop', hkept⟩ := searchLoop_keeps boost model (Q := fun g' => g'.Sound l ∧ KernelsTested model l g g')
    hes (fun loc order g' hc => ⟨(hc.sound hs).1, hc.kernelsTested⟩) hs alone
    (searchFuel (firstSearch model l es g).tasks) (s := firstSearch model l es g)
    ⟨(hs.fuseGreedy model).1, hs.fuseGreedy_tested hg.weights⟩
  obtain rfl := Option.some.inj (hloop.symm.trans hloop')
  have hcost : s.bestCost = dagCost
      { kernels := s.bestDag.kernels, edgesD := s.bestDag.edgesD, numW := s.bestDag.numVertices } :=
    hexact.cost.symm
  refine ⟨s, _, hloop, hend, congrArg (Option.map _) hloop, hkept.1.valid.acyclic, hkept.2, ?_, ?_, ?_⟩
  · rw [← hcost]
    exact hexact.first
  · intro mask loc hlen hcontracts hallowed
    have hsame : ∀ u < g.numVertices, ∀ v < g.numVertices, loc u = loc v ↔
        locMap (chosen es mask) u = locMap (chosen es mask) v := fun u hu v hv =>
      (hcontracts u hu v hv).trans (locMap_eq_iff _ u v).symm
    have hcosts : g.partitionCost boost l loc = g.partitionCost boost l (locMap (chosen es mask)) :=
      Partition.cost_congr hsave cost_mergedKernel_empty fun u hu v hv =>
        hsame u (Finset.mem_range.mp hu) v (Finset.mem_range.mp hv)
    rw [← hcost, hcosts]
    rcases hexact.best mask hlen (hallowed.congr hs hsame) with hle | ⟨t, ht, _⟩
    · exact hle
    · rw [hend] at ht
      cases ht
  · intro mask hlen
    have hlen' : ∀ t ∈ (firstSearch model l es g).tasks, Fresh t ∧ mask.length = t.1.length := fun t ht =>
      ⟨hfirst.fresh t ht, hlen.trans (hfirst.length t ht).symm⟩
    rw [hs.countP_searchTrace boost model hes alone mask _ (le_refl _) hlen', firstSearch,
      List.countP_singleton, if_pos ?_]
    refine (below_iff (hfirst.fresh _ (List.mem_singleton_self _))).mpr ⟨?_, rfl⟩
    rw [List.length_replicate]
    exact hlen

/-- `a = x + 1; b = a * 2` on vectors of three elements. -/
def producerConsumer : List BhInstruction :=
  let vec : ℕ → BhView := fun addr => ⟨some ⟨addr, .int64, 4⟩, 0, [⟨3, 1⟩]⟩
  let k : BhView := ⟨none, 0, []⟩
  [⟨.add, vec 1, vec 0, k, .int .int64 1⟩, ⟨.multiply, vec 2, vec 1, k, .int .int64 2⟩]

theorem mergingSaves_producerConsumer :
    (fromBhir producerConsumer .sameShape).MergingSaves plainBoost producerConsumer := by
  have horder : (fromBhir producerConsumer .sameShape).writeOrder plainBoost = [0, 1] := by decide +kernel
  have h0 : ((fromBhir producerConsumer .sameShape).kernel 0).instrIndexes = [0] := by decide +kernel
  have h1 : ((fromBhir producerConsumer .sameShape).kernel 1).instrIndexes = [1] := by decide +kernel
  intro S T hdisj
  have hd := Finset.disjoint_left.mp hdisj
  unfold GraphDW.mergedKernel GraphDW.membersOf
  rw [horder]
  by_cases hS0 : 0 ∈ S <;> by_cases hS1 : 1 ∈ S <;> by_cases hT0 : 0 ∈ T <;> by_cases hT1 : 1 ∈ T <;>
    simp [hS0, hS1, hT0, hT1, h0, h1] <;>
    first | exact absurd hT0 (hd hS0) | exact absurd hT1 (hd hS1) | decide +kernel

open GraphDW in
theorem branchNBound_exact_producerConsumer : ∃ best,
    branchNBound plainBoost .sameShape producerConsumer alone
      (edgesToExplore .regular (fromBhir producerConsumer .sameShape)) (fromBhir producerConsumer .sameShape)
      [true] 0 = some best ∧ Acyclic (Adj best.edgesD) ∧
      KernelsTested .sameShape producerConsumer (fromBhir producerConsumer .sameShape) best ∧
      dagCost best ≤ dagCost ((fromBhir producerConsumer .sameShape).fuseGreedy .sameShape producerConsumer) := by
  obtain ⟨s, best, _, _, hbest, hacyclic, htested, hgreedy, _⟩ := branchNBound_exact plainBoost .sameShape
    producerConsumer (fromBhir producerConsumer .sameShape) .regular
    ⟨(sound_fromBhir .sameShape producerConsumer).1, weightsTested_fromBhir .sameShape producerConsumer⟩
    mergingSaves_producerConsumer
  have hone : (edgesToExplore .regular (fromBhir producerConsumer .sameShape)).length = 1 := by decide +kernel
  rw [hone] at hbest
  exact ⟨best, hbest, hacyclic, htested, hgreedy⟩

end Bohrium
