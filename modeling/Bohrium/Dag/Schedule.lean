import Bohrium.Dag.Build
import Bohrium.Dag.Splitting
import Bohrium.Dag.Optimal

/-! # Every fuser yields a legal schedule

A schedule lists every instruction that is not `BH_NONE` once and keeps dependent instructions in
order. A sound graph written out in topological order is a schedule of its instructions, and so are
the schedules of the parts of a split one after the other. -/
namespace Bohrium
open Relation Edges Reorder
set_option autoImplicit false

/-- The instructions of a list of kernels, in the order they run in. -/
def concatenation (ks : List BhIrKernel) : List ℕ := ks.flatMap BhIrKernel.instrIndexes

/-- The kernels schedule the instructions in `H`. -/
structure Schedule (l : List BhInstruction) (H : ℕ → Prop) (ks : List BhIrKernel) : Prop where
  nodup : (concatenation ks).Nodup
  sub : ∀ i ∈ concatenation ks, H i
  complete : ∀ i, H i → (instrAt l i).opcode ≠ .none → i ∈ concatenation ks
  ordered : ∀ i ∈ concatenation ks, ∀ j ∈ concatenation ks, Precedes l i j →
    [i, j].Sublist (concatenation ks)

section
variable {l : List BhInstruction} {H H' : ℕ → Prop} {ks ks' : List BhIrKernel}

theorem Schedule.congr (h : Schedule l H ks) (hH : ∀ i, H i ↔ H' i) : Schedule l H' ks where
  nodup := h.nodup
  sub := fun i hi => (hH i).mp (h.sub i hi)
  complete := fun i hi => h.complete i ((hH i).mpr hi)
  ordered := h.ordered

/-- One schedule after another that nothing of the first depends on. -/
theorem Schedule.append (h : Schedule l H ks) (h' : Schedule l H' ks') (hdisj : ∀ i, H i → ¬ H' i)
    (hback : ∀ i j, H' i → H j → ¬ Precedes l i j) :
    Schedule l (fun i => H i ∨ H' i) (ks ++ ks') := by
  have hcat : concatenation (ks ++ ks') = concatenation ks ++ concatenation ks' := List.flatMap_append
  refine ⟨?_, ?_, ?_, ?_⟩ <;> rw [hcat]
  · refine List.nodup_append.mpr ⟨h.nodup, h'.nodup, fun i hi j hj hij => ?_⟩
    exact hdisj i (h.sub i hi) (hij ▸ h'.sub j hj)
  · intro i hi
    exact (List.mem_append.mp hi).imp (h.sub i) (h'.sub i)
  · rintro i (hi | hi) hop
    · exact List.mem_append_left _ (h.complete i hi hop)
    · exact List.mem_append_right _ (h'.complete i hi hop)
  · intro i hi j hj hij
    rcases List.mem_append.mp hi with hi | hi <;> rcases List.mem_append.mp hj with hj | hj
    · exact (h.ordered i hi j hj hij).trans (List.sublist_append_left _ _)
    · exact (List.singleton_sublist.mpr hi).append (List.singleton_sublist.mpr hj)
    · exact absurd hij (hback i j (h'.sub i hi) (h.sub j hj))
    · exact (h'.ordered i hi j hj hij).trans (List.sublist_append_right _ _)

theorem Schedule.flatten {α : Type} (P : α → ℕ → Prop) (xs : List α) (kss : List (List BhIrKernel))
    (h : List.Forall₂ (fun x ks => Schedule l (P x) ks) xs kss)
    (hdisj : xs.Pairwise fun x y => ∀ i, P x i → ¬ P y i)
    (hback : xs.Pairwise fun x y => ∀ i j, P y i → P x j → ¬ Precedes l i j) :
    Schedule l (fun i => ∃ x ∈ xs, P x i) kss.flatten := by
  induction h with
  | nil => exact ⟨List.nodup_nil, by simp [concatenation], by simp, by simp [concatenation]⟩
  | @cons x ks xs kss hx _ ih =>
    obtain ⟨hdx, hd⟩ := List.pairwise_cons.mp hdisj
    obtain ⟨hbx, hb⟩ := List.pairwise_cons.mp hback
    have happ := hx.append (ih hd hb) ?_ ?_
    · rw [List.flatten_cons]
      exact happ.congr fun i => by simp
    · rintro i hi ⟨y, hy, hyi⟩
      exact hdx y hy i hi hyi
    · rintro i j ⟨y, hy, hyi⟩ hj
      exact hbx y hy i j hyi hj

/-- A run of kernels in the order of the list is a schedule. -/
theorem schedule_kernelRuns (l : List BhInstruction) (accept : BhIrKernel → ℕ → Bool) :
    Schedule l (fun i => i < l.length) (kernelRuns l accept) := by
  have hcat : concatenation (kernelRuns l accept) = List.range l.length := (kernelRuns_spec l accept).1
  refine ⟨?_, ?_, ?_, ?_⟩ <;> rw [hcat]
  · exact List.nodup_range
  · exact fun i => List.mem_range.mp
  · exact fun i hi _ => List.mem_range.mpr hi
  · intro i hi j hj hij
    exact GraphDW.pair_sublist_of_sorted List.pairwise_lt_range hi hj hij.1

end

namespace GraphDW
variable (boost : Boost) {l : List BhInstruction} {g : GraphDW}

/-- A sound graph written out. -/
theorem Sound.fillKernelList (hs : g.Sound l) :
    ∃ ks, fillKernelList l boost g = some ks ∧ Schedule l g.Holds ks := by
  obtain ⟨order, hsort, hperm, htopo⟩ := boost.topologicalSort_acyclic _ _ hs.inRange hs.valid.acyclic
  refine ⟨_, congrArg (Option.map _) hsort, ?_⟩
  let p : ℕ → Bool := fun v => !(g.kernel v).isNoop l
  have hcat : concatenation ((order.reverse.map g.kernel).filter fun k => !k.isNoop l) =
      (order.reverse.filter p).flatMap g.blocks.block := by
    rw [List.filter_map, concatenation, List.flatMap_map]
    rfl
  have hnd : order.reverse.Nodup := List.nodup_reverse.mpr (hperm.nodup_iff.mpr List.nodup_range)
  have htopo' : ∀ u v, g.blocks.edge u v → [u, v].Sublist order.reverse := fun u v he => by
    simpa using List.reverse_sublist.mpr (htopo u v he)
  refine ⟨?_, ?_, ?_, ?_⟩ <;> rw [hcat]
  · refine List.nodup_flatMap.mpr ⟨fun v _ => hs.valid.nodup v, (hnd.filter p).imp ?_⟩
    intro u v huv i hu hv
    exact huv (hs.valid.disjoint u v i hu hv)
  · intro i hi
    obtain ⟨v, _, hv⟩ := List.mem_flatMap.mp hi
    exact ⟨v, hv⟩
  · rintro i ⟨v, hv⟩ hop
    have hkeep : p v = true := by
      simp only [p, BhIrKernel.isNoop, Bool.not_eq_true', List.all_eq_false]
      exact ⟨i, hv, by simpa using hop⟩
    have hlt : v < g.numVertices := Live.lt (List.ne_nil_of_mem hv)
    have hmem : v ∈ order.reverse := List.mem_reverse.mpr (hperm.mem_iff.mpr (List.mem_range.mpr hlt))
    exact List.mem_flatMap.mpr ⟨v, List.mem_filter.mpr ⟨hmem, hkeep⟩, hv⟩
  · intro i hi j hj hij
    obtain ⟨u, hu, hui⟩ := List.mem_flatMap.mp hi
    obtain ⟨v, hv, hvj⟩ := List.mem_flatMap.mp hj
    exact hs.valid.order_respects hnd htopo' p hui hvj hu hv hij

theorem mapM_some {α β : Type} {f : α → Option β} {P : α → β → Prop} (xs : List α)
    (h : ∀ x ∈ xs, ∃ y, f x = some y ∧ P x y) : ∃ ys, xs.mapM f = some ys ∧ List.Forall₂ P xs ys := by
  induction xs with
  | nil => exact ⟨[], rfl, List.Forall₂.nil⟩
  | cons x xs ih =>
    obtain ⟨y, hy, hP⟩ := h x List.mem_cons_self
    obtain ⟨ys, hys, hall⟩ := ih fun z hz => h z (List.mem_cons_of_mem x hz)
    refine ⟨y :: ys, ?_, hall.cons hP⟩
    rw [List.mapM_cons, hy, hys]
    rfl

/-- The parts of a split, each fused into a sound graph of the same instructions and written out. -/
theorem Splits.schedule (hs : g.Sound l) {parts : List (List ℕ)} (h : Splits g parts)
    (fuse : GraphDW → Option GraphDW)
    (hfuse : ∀ d, d.Sound l → ∃ d', fuse d = some d' ∧ d'.Sound l ∧ ∀ i, d'.Holds i ↔ d.Holds i) :
    ∃ dags, (parts.map g.subgraph).mapM fuse = some dags ∧
      ∃ kss, dags.mapM (Bohrium.fillKernelList l boost) = some kss ∧ Schedule l g.Holds kss.flatten := by
  obtain ⟨dags, hdags, hsound⟩ := mapM_some (f := fun vs => fuse (g.subgraph vs))
    (P := fun vs d => d.Sound l ∧ ∀ i, d.Holds i ↔ ∃ v ∈ vs, i ∈ (g.kernel v).instrIndexes) parts (by
      intro vs hvs
      obtain ⟨d, hd, hd', hh⟩ := hfuse _ (Splits.sound h hs hvs)
      exact ⟨d, hd, hd', fun i => (hh i).trans ((partOf_subgraph g vs).holds i)⟩)
  have hfill : ∃ kss, dags.mapM (Bohrium.fillKernelList l boost) = some kss ∧
      List.Forall₂ (fun vs ks => Schedule l (fun i => ∃ v ∈ vs, i ∈ (g.kernel v).instrIndexes) ks)
        parts kss := by
    clear hdags h
    induction hsound with
    | nil => exact ⟨[], rfl, List.Forall₂.nil⟩
    | @cons vs d parts dags hd hall ih =>
      obtain ⟨ks, hks, hsched⟩ := hd.1.fillKernelList boost
      obtain ⟨kss, hkss, hrest⟩ := ih
      refine ⟨ks :: kss, ?_, hrest.cons (hsched.congr hd.2)⟩
      rw [List.mapM_cons, hks, hkss]
      rfl
  obtain ⟨kss, hkss, hall⟩ := hfill
  refine ⟨dags, ?_, kss, hkss, ?_⟩
  · rw [List.mapM_map]
    exact hdags
  refine (Schedule.flatten _ parts kss hall ?_ ?_).congr fun i => ?_
  · refine h.disjoint.imp fun {vs ws} hvw i ⟨v, hv, hi⟩ ⟨w, hw, hi'⟩ => ?_
    exact hvw hv (hs.valid.disjoint v w i hi hi' ▸ hw)
  · refine (h.disjoint.and h.order).imp ?_
    rintro vs ws ⟨hdisj, hback⟩ i j ⟨u, hu, hi⟩ ⟨v, hv, hj⟩ hij
    have huv : u ≠ v := fun e => hdisj hv (e ▸ hu)
    exact hback u hu v hv (hs.valid.path u v i j huv hi hj hij)
  · constructor
    · rintro ⟨vs, _, v, _, hi⟩
      exact ⟨v, hi⟩
    · rintro ⟨v, hi⟩
      obtain ⟨vs, hvs, hv⟩ := h.cover v (Live.lt (List.ne_nil_of_mem hi))
      exact ⟨vs, hvs, v, hv, hi⟩

end GraphDW

/-- How the fusers on graphs fuse one part of the split graph. -/
def partFuser (boost : Boost) (model : FuseModel) (l : List BhInstruction) : Fuser → GraphDW → Option GraphDW
  | .singleton, d | .topological, d => some d
  | .gentle, d => some (d.fuseGently model l)
  | .greedy, d => some ((d.fuseGently model l).fuseGreedy model l)
  | .optimal env, d => fuseOptimal boost model l env (d.fuseGently model l).transitiveReduction

/-- The fuser builds and splits a graph. -/
def Fuser.onGraph : Fuser → Bool
  | .singleton | .topological => false
  | _ => true

theorem doFusion_of_parts {boost : Boost} {model : FuseModel} {l : List BhInstruction} {fuser : Fuser}
    (hf : fuser.onGraph = true) {dags₀ dags : List GraphDW} {kss : List (List BhIrKernel)}
    (h0 : split boost (fromBhir l model) = some dags₀)
    (h1 : dags₀.mapM (partFuser boost model l fuser) = some dags)
    (h2 : dags.mapM (fillKernelList l boost) = some kss) :
    doFusion boost model l fuser = some kss.flatten := by
  cases fuser with
  | singleton => cases hf
  | topological => cases hf
  | gentle =>
    have hmap : dags = dags₀.map fun d => d.fuseGently model l :=
      Option.some.inj (h1.symm.trans List.mapM_pure)
    simp only [doFusion, h0, ← hmap, h2, Option.bind_eq_bind, Option.bind_some, Option.pure_def]
  | greedy =>
    have hmap : dags = dags₀.map fun d => (d.fuseGently model l).fuseGreedy model l :=
      Option.some.inj (h1.symm.trans List.mapM_pure)
    simp only [doFusion, h0, ← hmap, h2, Option.bind_eq_bind, Option.bind_some, Option.pure_def]
  | optimal env =>
    have h1' : dags₀.mapM (fun d => fuseOptimal boost model l env
        (d.fuseGently model l).transitiveReduction) = some dags := h1
    simp only [doFusion, h0, h1', h2, Option.bind_eq_bind, Option.bind_some, Option.pure_def]

theorem GraphDW.Sound.partFuser (boost : Boost) (model : FuseModel) {l : List BhInstruction} (fuser : Fuser)
    {d : GraphDW} (hd : d.Sound l) : ∃ d', partFuser boost model l fuser d = some d' ∧ d'.Sound l ∧
      ∀ i, d'.Holds i ↔ d.Holds i := by
  obtain ⟨hg, hh⟩ := hd.fuseGently model
  cases fuser with
  | singleton => exact ⟨d, rfl, hd, fun i => Iff.rfl⟩
  | topological => exact ⟨d, rfl, hd, fun i => Iff.rfl⟩
  | gentle => exact ⟨_, rfl, hg, hh⟩
  | greedy =>
    obtain ⟨hg', hh'⟩ := hg.fuseGreedy model
    exact ⟨_, rfl, hg', fun i => (hh' i).trans (hh i)⟩
  | optimal env =>
    obtain ⟨d', hd', hs, hh'⟩ := hg.transitiveReduction.fuseOptimal boost model env
    exact ⟨d', hd', hs, fun i => (hh' i).trans (hh i)⟩

theorem sound_fromBhir (model : FuseModel) (l : List BhInstruction) : (fromBhir l model).Sound l ∧
    ∀ i, (fromBhir l model).Holds i ↔ i < l.length := by
  obtain ⟨hs, _, _, hholds⟩ := GraphDW.fromBhir_induction model l (fun _ => True) trivial
    fun _ _ _ _ _ _ _ _ => trivial
  exact ⟨hs, hholds⟩

/-- A run of a fuser on graphs, with everything it makes on the way. -/
theorem doFusion_parts (boost : Boost) (model : FuseModel) (l : List BhInstruction) {fuser : Fuser}
    (hf : fuser.onGraph = true) : ∃ parts dags kss,
      split boost (fromBhir l model) = some (parts.map (fromBhir l model).subgraph) ∧
      Splits (fromBhir l model) parts ∧
      (parts.map (fromBhir l model).subgraph).mapM (partFuser boost model l fuser) = some dags ∧
      dags.mapM (fillKernelList l boost) = some kss ∧
      doFusion boost model l fuser = some kss.flatten ∧
      Schedule l (fun i => i < l.length) kss.flatten := by
  obtain ⟨hs, hholds⟩ := sound_fromBhir model l
  obtain ⟨parts, hparts, hsplits⟩ := hs.split boost
  obtain ⟨dags, hdags, kss, hkss, hsched⟩ := GraphDW.Splits.schedule boost hs hsplits
    (partFuser boost model l fuser) fun d hd => hd.partFuser boost model fuser
  exact ⟨parts, dags, kss, hparts, hsplits, hdags, hkss, doFusion_of_parts hf hparts hdags hkss,
    hsched.congr hholds⟩

theorem doFusion_schedule (boost : Boost) (model : FuseModel) (l : List BhInstruction) (fuser : Fuser) :
    ∃ ks, doFusion boost model l fuser = some ks ∧ Schedule l (fun i => i < l.length) ks := by
  cases hf : fuser.onGraph with
  | false =>
    cases fuser with
    | singleton => exact ⟨_, rfl, schedule_kernelRuns l _⟩
    | topological => exact ⟨_, rfl, schedule_kernelRuns l _⟩
    | gentle => cases hf
    | greedy => cases hf
    | optimal => cases hf
  | true =>
    obtain ⟨parts, dags, kss, _, _, _, _, hks, hsched⟩ := doFusion_parts boost model l hf
    exact ⟨_, hks, hsched⟩

/-- A schedule of the whole list keeps dependent instructions in order. -/
theorem Schedule.dependency {l : List BhInstruction} {ks : List BhIrKernel}
    (h : Schedule l (fun i => i < l.length) ks) {i j : ℕ} (hij : i < j)
    (hdep : dependencyAt l i j = true) : [i, j].Sublist (concatenation ks) := by
  obtain ⟨hi, hj⟩ := dependencyAt_lt_length hdep
  -- an instruction with a dependency has operands, so it is not `BH_NONE`
  have hops : (instrAt l i).opcode ≠ .none ∧ (instrAt l j).opcode ≠ .none := by
    have hdep' := hdep
    rw [dependencyAt_eq] at hdep'
    unfold bhInstrDependency at hdep'
    split_ifs at hdep' with hnop
    simp only [Bool.or_eq_true, beq_iff_eq, bhOperands_eq_zero_iff, not_or] at hnop
    exact hnop
  exact h.ordered i (h.complete i hi hops.1) j (h.complete j hj hops.2) ⟨hij, hdep⟩

/-- Every fuser, whatever the fuse model, the graph library's choices and the threads: the kernels
hold every instruction that is not `BH_NONE` once, no instruction twice, and dependent instructions
in order. -/
theorem doFusion_legal (boost : Boost) (model : FuseModel) (l : List BhInstruction) (fuser : Fuser) :
    ∃ ks, doFusion boost model l fuser = some ks ∧
      (ks.flatMap BhIrKernel.instrIndexes).Nodup ∧
      (∀ i ∈ ks.flatMap BhIrKernel.instrIndexes, i < l.length) ∧
      (∀ i a, l[i]? = some a → a.opcode ≠ .none → i ∈ ks.flatMap BhIrKernel.instrIndexes) ∧
      ∀ i j a b, i < j → l[i]? = some a → l[j]? = some b → bhInstrDependency a b = true →
        [i, j].Sublist (ks.flatMap BhIrKernel.instrIndexes) := by
  obtain ⟨ks, hks, hs⟩ := doFusion_schedule boost model l fuser
  refine ⟨ks, hks, hs.nodup, hs.sub, fun i a ha hop => ?_, fun i j a b hij ha hb hdep => ?_⟩
  · obtain ⟨hlt, hget⟩ := List.getElem?_eq_some_iff.mp ha
    refine hs.complete i hlt ?_
    rw [instrAt, List.getD_eq_getElem l _ hlt, hget]
    exact hop
  · exact hs.dependency hij ((dependencyAt_of_getElem? ha hb).trans hdep)

end Bohrium
