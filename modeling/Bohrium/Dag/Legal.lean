import Bohrium.Dag.Schedule
import Bohrium.Dag.Weights

/-! # Which kernels their own fuse model accepts

A kernel is legal if `fusible()` holds of it. Merges test the kernels they merge, so they keep
legality where `check_fusible` does not depend on the order of its arguments; `from_bhir` puts system
instructions into kernels without a test, and what it puts together stays together. So the kernels of
a fuser on graphs are legal exactly if those of `from_bhir` are. -/
namespace Bohrium
open Relation Edges Reorder
set_option autoImplicit false

/-! ## Invariants of a fuser -/

/-- A property of graphs that every step of the fusers on graphs keeps. -/
structure FuserInvariant (model : FuseModel) (l : List BhInstruction) (Q : GraphDW → Prop) : Prop where
  gentle : ∀ g v w wBeforeV, g.Sound l → Q g → g.singleEnding v = some (w, wBeforeV) →
    (g.kernel v).fusibleKernel model l (g.kernel w) = true → Q (g.mergeVertices model l w v wBeforeV)
  greedy : ∀ g, ∀ e ∈ g.edgesW, g.Sound l → Q g → Q (g.greedyStep model l e.source e.target)
  cleared : ∀ g, g.Sound l → Q g → Q g.removeClearedVertices
  reduced : ∀ g, Q g → Q g.transitiveReduction
  collapsed : ∀ g loc order g', g.Sound l → Q g → GraphDW.Collapsed model l g loc order g' → Q g'
  unweighted : ∀ g, Q g → Q { kernels := g.kernels, edgesD := g.edgesD, numW := g.numVertices }

namespace FuserInvariant
variable {model : FuseModel} {l : List BhInstruction} {Q : GraphDW → Prop} {g : GraphDW}

theorem fuseGently (h : FuserInvariant model l Q) (hs : g.Sound l) (hQ : Q g) :
    Q (g.fuseGently model l) := by
  have hloop := GraphDW.fuseGentlyLoop_induction model (P := fun g => g.Sound l ∧ Q g)
    (fun g v w wBeforeV hg hse hfus => ⟨hg.1.merge model (GraphDW.mergeable_of_singleEnding hg.1 hse),
      h.gentle g v w wBeforeV hg.1 hg.2 hse hfus⟩) g.numVertices (List.range g.numVertices) ⟨hs, hQ⟩
  exact h.cleared _ hloop.1 hloop.2

theorem fuseGreedy (h : FuserInvariant model l Q) (hs : g.Sound l) (hQ : Q g) :
    Q (g.fuseGreedy model l) := by
  have hloop := GraphDW.fuseGreedyLoop_induction model (P := fun g => g.Sound l ∧ Q g)
    (fun g e he hg => by
      obtain ⟨hne, h1, h2⟩ := hg.1.ends e he
      exact ⟨(hg.1.greedyStep model hne h1 h2).1, h.greedy g e he hg.1 hg.2⟩) g.greedyFuel ⟨hs, hQ⟩
  exact h.cleared _ hloop.1 hloop.2

theorem partFuser (h : FuserInvariant model l Q) (boost : Boost) (fuser : Fuser) (hs : g.Sound l)
    (hQ : Q g) {g' : GraphDW} (hg' : partFuser boost model l fuser g = some g') : Q g' := by
  have hgs := (hs.fuseGently model).1
  have hgQ := h.fuseGently hs hQ
  cases fuser with
  | singleton => exact Option.some.inj hg' ▸ hQ
  | topological => exact Option.some.inj hg' ▸ hQ
  | gentle => exact Option.some.inj hg' ▸ hgQ
  | greedy => exact Option.some.inj hg' ▸ h.fuseGreedy hgs hgQ
  | optimal env =>
    have hrs := hgs.transitiveReduction
    have hrQ := h.reduced _ hgQ
    obtain ⟨d, hd, hdQ⟩ := GraphDW.fuseOptimal_keeps boost model hrs env hrQ (h.fuseGreedy hrs hrQ)
      (fun loc order d => h.collapsed _ loc order d hrs hrQ) h.unweighted
    exact Option.some.inj (hd.symm.trans hg') ▸ hdQ

end FuserInvariant

/-! ## Kernels that the model accepts -/

section
variable {model : FuseModel} {l : List BhInstruction}

theorem fusible_iff {k : BhIrKernel} : k.fusible model l = true ↔
    k.instrIndexes.Pairwise fun i j => checkFusible model (instrAt l i) (instrAt l j) = true := by
  unfold BhIrKernel.fusible
  exact decide_eq_true_iff

/-- A kernel that took in its instructions one by one. -/
theorem pairwise_of_fusibleOneByOne (hsym : FusibleSymm model l) (is : List ℕ)
    (his : ∀ i ∈ is, i < l.length) (k : BhIrKernel) (hk : ∀ i ∈ k.instrIndexes, i < l.length)
    (h : fusibleOneByOne model l k is = true) :
    (is.Pairwise fun i j => checkFusible model (instrAt l i) (instrAt l j) = true) ∧
      ∀ i ∈ k.instrIndexes, ∀ j ∈ is, checkFusible model (instrAt l i) (instrAt l j) = true := by
  induction is generalizing k with
  | nil => exact ⟨List.Pairwise.nil, by simp⟩
  | cons idx is ih =>
    rw [fusibleOneByOne, Bool.and_eq_true, BhIrKernel.fusibleInstr, List.all_eq_true] at h
    have hidx := his idx List.mem_cons_self
    obtain ⟨hpair, hcross⟩ := ih (fun i hi => his i (List.mem_cons_of_mem idx hi)) (k.addInstr l idx)
      (by
        intro i hi
        rw [BhIrKernel.instrIndexes_addInstr, List.mem_append, List.mem_singleton] at hi
        exact hi.elim (hk i) fun e => e ▸ hidx) h.2
    simp only [BhIrKernel.instrIndexes_addInstr, List.mem_append, List.mem_singleton] at hcross
    refine ⟨List.pairwise_cons.mpr ⟨fun j hj => hcross idx (Or.inr rfl) j hj, hpair⟩, ?_⟩
    intro i hi j hj
    rcases List.mem_cons.mp hj with rfl | hj
    · rw [hsym _ (instrAt_mem (hk i hi)) _ (instrAt_mem hidx)]
      exact h.1 i hi
    · exact hcross i (Or.inl hi) j hj

end

namespace GraphDW
variable {model : FuseModel} {l : List BhInstruction} {g : GraphDW}

/-- Every kernel is legal, and weight edges join fusible kernels. -/
structure Legal (model : FuseModel) (l : List BhInstruction) (g : GraphDW) : Prop where
  kernels : ∀ v, (g.kernel v).fusible model l = true
  weights : ∀ e ∈ g.edgesW, (g.kernel e.source).fusibleKernel model l (g.kernel e.target) = true

theorem Legal.mergeVertices (hsym : FusibleSymm model l) (hs : g.Sound l) (h : Legal model l g) {a b : ℕ}
    {aBeforeB : Bool} (hm : Mergeable g a b aBeforeB)
    (hf : (g.kernel a).fusibleKernel model l (g.kernel b) = true) :
    Legal model l (g.mergeVertices model l a b aBeforeB) := by
  have hs' := hs.merge model hm
  have hspec := fun v => kernel_mergeVertices (l := l) model aBeforeB hm.live_left.lt hm.live_right.lt v
  have hf' : (g.kernel b).fusibleKernel model l (g.kernel a) = true := by
    rw [fusibleKernel_comm hsym (hs.bounded b) (hs.bounded a)]
    exact hf
  refine ⟨fun v => ?_, fun e he => ?_⟩
  · obtain ⟨hother, hka, hkb⟩ := hspec v
    by_cases hva : v = a
    · subst hva
      rw [fusible_iff, hka hm.ne]
      split_ifs
      · exact List.pairwise_append.mpr ⟨fusible_iff.mp (h.kernels v), fusible_iff.mp (h.kernels b),
          fusibleKernel_iff.mp hf⟩
      · exact List.pairwise_append.mpr ⟨fusible_iff.mp (h.kernels b), fusible_iff.mp (h.kernels v),
          fusibleKernel_iff.mp hf'⟩
    · by_cases hvb : v = b
      · subst hvb
        rw [fusible_iff, hkb]
        exact List.Pairwise.nil
      · rw [hother hva hvb]
        exact h.kernels v
  · rcases mem_edgesW_mergeVertices model aBeforeB (fun e he => (hs.ends e he).1) he with
      ⟨he', h1, h2, h3, h4⟩ | ⟨v, _, _, hj, _, hnn, hval⟩
    · rw [(hspec e.source).1 h1 h3, (hspec e.target).1 h2 h4]
      exact h.weights e he'
    · rw [hval, mergeCostSavings_nonneg_iff] at hnn
      rcases joins_iff.mp hj with ⟨rfl, rfl⟩ | ⟨rfl, rfl⟩
      · exact hnn
      · rw [fusibleKernel_comm hsym (hs'.bounded _) (hs'.bounded _)]
        exact hnn

theorem PartOf.legal {g' : GraphDW} {vs : List ℕ} (hp : PartOf g' g vs) (h : Legal model l g) :
    Legal model l g' := by
  refine ⟨fun v => ?_, fun e he => ?_⟩
  · by_cases hv : v < vs.length
    · rw [hp.kernel_eq hv]
      exact h.kernels _
    · rw [kernel_of_ge _ (hp.numVertices_eq ▸ Nat.le_of_not_lt hv), fusible_iff]
      exact List.Pairwise.nil
  · obtain ⟨f, hf, hfs, hft, rfl⟩ := hp.edgesW e he
    rw [hp.kernel_idxOf hfs, hp.kernel_idxOf hft]
    exact h.weights f hf

/-- The graph that `from_bhir` builds is legal if its kernels are. -/
theorem legal_fromBhir (hsym : FusibleSymm model l)
    (hruns : ∀ k ∈ kernelRuns l (gentleAccept l), k.fusible model l = true) :
    Legal model l (fromBhir l model) := by
  obtain ⟨_, hweights, hkernels, _⟩ := fromBhir_induction model l
    (fun g => ∀ e ∈ g.edgesW, (g.kernel e.source).fusibleKernel model l (g.kernel e.target) = true)
    (by simp) (by
      intro g k h hb _ hx hb' hw e he
      rcases hx.newW e he with he' | ⟨v, hv, rfl, hcost⟩
      · obtain ⟨_, h1, h2⟩ := hb.sound.ends e he'
        rw [hx.kernel_old h1.lt, hx.kernel_old h2.lt]
        exact hw e he'
      · rw [fusibleKernel_comm hsym (hb'.sound.bounded _) (hb'.sound.bounded _), hx.kernel_new,
          hx.kernel_old hv]
        exact mergeCostSavings_nonneg_iff.mp hcost)
  refine ⟨fun v => ?_, hweights⟩
  unfold kernel
  rw [hkernels]
  by_cases hv : v < (kernelRuns l (gentleAccept l)).length
  · rw [List.getD_eq_getElem _ _ hv]
    exact hruns _ (List.getElem_mem hv)
  · rw [List.getD_eq_default _ _ (Nat.le_of_not_lt hv), fusible_iff]
    exact List.Pairwise.nil

/-- Legality is an invariant of the fusers. -/
theorem legal_invariant (hsym : FusibleSymm model l) : FuserInvariant model l (Legal model l) where
  gentle := by
    intro g v w wBeforeV hs h hse hfus
    rw [fusibleKernel_comm hsym (hs.bounded v) (hs.bounded w)] at hfus
    exact h.mergeVertices hsym hs (mergeable_of_singleEnding hs hse) hfus
  greedy := by
    intro g e he hs h
    obtain ⟨hne, h1, h2⟩ := hs.ends e he
    rcases greedyStep_cases model hs hne h1 h2 with ⟨heq, _⟩ | ⟨a, b, heq, hm, hends⟩ <;> rw [heq]
    · exact ⟨h.kernels, fun f hf => h.weights f (List.mem_filter.mp hf).1⟩
    · refine h.mergeVertices hsym hs hm ?_
      rcases hends with ⟨rfl, rfl⟩ | ⟨rfl, rfl⟩
      · exact h.weights e he
      · rw [fusibleKernel_comm hsym (hs.bounded _) (hs.bounded _)]
        exact h.weights e he
  cleared := fun g hs h => (partOf_removeClearedVertices hs).legal h
  reduced := fun g h => ⟨h.kernels, fun e he => h.weights e (List.mem_filter.mp he).1⟩
  collapsed := by
    intro g loc order g' hs _ hc
    refine ⟨fun v => ?_, by simp [hc.edgesW]⟩
    rw [fusible_iff]
    exact (pairwise_of_fusibleOneByOne hsym _ ((hc.sound hs).1.bounded v) {} (by simp) (hc.fusible v)).1
  unweighted := fun g h => ⟨h.kernels, by simp⟩

/-- Two instructions stand in one kernel, in this order. -/
def Together (g : GraphDW) (i j : ℕ) : Prop := ∃ v, [i, j].Sublist (g.kernel v).instrIndexes

theorem together_mergeVertices {a b i j : ℕ} {aBeforeB : Bool} (hm : Mergeable g a b aBeforeB)
    (h : g.Together i j) : (g.mergeVertices model l a b aBeforeB).Together i j := by
  obtain ⟨v, hv⟩ := h
  obtain ⟨hother, hka, _⟩ := kernel_mergeVertices (l := l) model aBeforeB hm.live_left.lt hm.live_right.lt v
  by_cases hva : v = a
  · subst hva
    refine ⟨v, hv.trans ?_⟩
    rw [hka hm.ne]
    split_ifs
    · exact List.sublist_append_left _ _
    · exact List.sublist_append_right _ _
  · by_cases hvb : v = b
    · subst hvb
      refine ⟨a, hv.trans ?_⟩
      rw [hka hm.ne]
      split_ifs
      · exact List.sublist_append_right _ _
      · exact List.sublist_append_left _ _
    · exact ⟨v, by rw [hother hva hvb]; exact hv⟩

theorem PartOf.together {g' : GraphDW} {vs : List ℕ} (hp : PartOf g' g vs) {v i j : ℕ} (hvs : v ∈ vs)
    (hv : [i, j].Sublist (g.kernel v).instrIndexes) : g'.Together i j :=
  ⟨vs.idxOf v, by rw [hp.kernel_idxOf hvs]; exact hv⟩

/-- What stands together stays together. -/
theorem together_invariant (i j : ℕ) : FuserInvariant model l (Together · i j) where
  gentle := fun g v w wBeforeV hs h hse _ => together_mergeVertices (mergeable_of_singleEnding hs hse) h
  greedy := by
    intro g e he hs h
    obtain ⟨hne, h1, h2⟩ := hs.ends e he
    rcases greedyStep_cases model hs hne h1 h2 with ⟨heq, _⟩ | ⟨a, b, heq, hm, _⟩ <;> rw [heq]
    · exact h
    · exact together_mergeVertices hm h
  cleared := by
    rintro g hs ⟨v, hv⟩
    have hlive : g.Live v := List.ne_nil_of_mem (hv.subset List.mem_cons_self)
    exact (partOf_removeClearedVertices hs).together (mem_live.mpr hlive) hv
  reduced := fun g h => h
  collapsed := by
    rintro g loc order g' _ ⟨v, hv⟩ hc
    exact ⟨loc v, hv.trans (hc.sublist (hv.subset List.mem_cons_self))⟩
  unweighted := fun g h => h

theorem together_fromBhir (model : FuseModel) {k : BhIrKernel} (hk : k ∈ kernelRuns l (gentleAccept l)) {i j : ℕ}
    (hij : [i, j].Sublist k.instrIndexes) : (fromBhir l model).Together i j := by
  obtain ⟨_, _, hkernels, _⟩ := fromBhir_induction model l (fun _ => True) trivial
    fun _ _ _ _ _ _ _ _ => trivial
  obtain ⟨v, hv, rfl⟩ := List.getElem_of_mem hk
  refine ⟨v, ?_⟩
  unfold kernel
  rw [hkernels, List.getD_eq_getElem _ _ hv]
  exact hij

end GraphDW

/-! ## The runs of `from_bhir` -/

/-- From instruction `s` to instruction `e` all but the first are system instructions on an array that
an instruction of the stretch before them accesses: `from_bhir` puts them into one kernel. -/
def Stretch (l : List BhInstruction) (s e : ℕ) : Prop :=
  ∀ q, s < q → q ≤ e → (instrAt l q).isSystem = true ∧ bhOperands (instrAt l q).opcode = 1 ∧
    ∃ i, s ≤ i ∧ i < q ∧ ∃ v ∈ (instrAt l i).operands,
      bhIsConstant v = false ∧ v.base = (instrAt l q).operand0.base

/-- The fuse model accepts the instructions of every stretch. -/
def StretchesAccepted (model : FuseModel) (l : List BhInstruction) : Prop :=
  ∀ s i j, s ≤ i → i < j → j < l.length → Stretch l s j →
    checkFusible model (instrAt l i) (instrAt l j) = true

section
variable {l : List BhInstruction}

theorem gentleAccept_iff {k : BhIrKernel} {q : ℕ} : gentleAccept l k q = true ↔
    (instrAt l q).isSystem = true ∧ bhOperands (instrAt l q).opcode = 1 ∧
      ∃ i ∈ k.instrIndexes, ∃ v ∈ (instrAt l i).operands,
        bhIsConstant v = false ∧ v.base = (instrAt l q).operand0.base := by
  simp only [gentleAccept, baseInKernel, Bool.and_eq_true, beq_iff_eq, List.any_eq_true,
    Bool.not_eq_true', and_assoc]

/-- The kernel holds the instructions from `a` up to `b`, which are a stretch. -/
structure IsRun (l : List BhInstruction) (k : BhIrKernel) (a b : ℕ) : Prop where
  mem : ∀ i, i ∈ k.instrIndexes ↔ a ≤ i ∧ i < b
  sorted : k.instrIndexes.Pairwise (· < ·)
  stretch : ∀ e < b, Stretch l a e

theorem isRun_single (idx : ℕ) : IsRun l (BhIrKernel.addInstr l {} idx) idx (idx + 1) := by
  have hidx : (BhIrKernel.addInstr l {} idx).instrIndexes = [idx] := rfl
  refine ⟨fun i => ?_, ?_, fun e he q hq hqe => ?_⟩
  · rw [hidx, List.mem_singleton]
    omega
  · rw [hidx]
    exact List.pairwise_singleton _ _
  · omega

theorem IsRun.addInstr {k : BhIrKernel} {a b : ℕ} (h : IsRun l k a b) (hab : a < b)
    (hacc : gentleAccept l k b = true) : IsRun l (k.addInstr l b) a (b + 1) := by
  obtain ⟨hsys, hnop, i, hi, hv⟩ := gentleAccept_iff.mp hacc
  obtain ⟨hai, hib⟩ := (h.mem i).mp hi
  refine ⟨fun i => ?_, ?_, fun e he q hq hqe => ?_⟩
  · rw [BhIrKernel.instrIndexes_addInstr, List.mem_append, List.mem_singleton, h.mem]
    omega
  · rw [BhIrKernel.instrIndexes_addInstr]
    refine List.pairwise_append.mpr ⟨h.sorted, List.pairwise_singleton _ _, fun i hi j hj => ?_⟩
    rw [List.mem_singleton.mp hj]
    exact ((h.mem i).mp hi).2
  · rcases Nat.lt_succ_iff_lt_or_eq.mp he with hlt | rfl
    · exact h.stretch e hlt q hq hqe
    · rcases Nat.lt_or_eq_of_le hqe with hlt | rfl
      · exact h.stretch (e - 1) (by omega) q hq (by omega)
      · exact ⟨hsys, hnop, i, hai, hib, hv⟩

/-- The kernels of `from_bhir` are runs, and every stretch lies in one of them. -/
theorem kernelRunsLoop_runs (rest : List ℕ) (k : BhIrKernel) (a b : ℕ) (hab : a < b)
    (hk : IsRun l k a b) (hrest : rest = List.range' b rest.length) :
    (∀ k' ∈ kernelRunsLoop l (gentleAccept l) k rest, ∃ a' b', IsRun l k' a' b') ∧
      ∀ s e, a ≤ s → s < e → e < b + rest.length → Stretch l s e →
        ∃ k' ∈ kernelRunsLoop l (gentleAccept l) k rest, ∃ a' b', IsRun l k' a' b' ∧ a' ≤ s ∧ e < b' := by
  induction rest generalizing k a b with
  | nil =>
    refine ⟨fun k' hk' => ?_, fun s e has hse he _ => ?_⟩
    · rw [List.mem_singleton.mp hk']
      exact ⟨a, b, hk⟩
    · exact ⟨k, List.mem_singleton_self k, a, b, hk, has, he⟩
  | cons idx rest ih =>
    rw [List.length_cons, List.range'_succ] at hrest
    obtain ⟨rfl, hrest⟩ := List.cons.inj hrest
    rw [kernelRunsLoop]
    split_ifs with hacc
    · obtain ⟨h1, h2⟩ := ih (k.addInstr l idx) a (idx + 1) (by omega) (hk.addInstr hab hacc) hrest
      refine ⟨h1, fun s e has hse he => h2 s e has hse ?_⟩
      rw [List.length_cons] at he
      omega
    · obtain ⟨h1, h2⟩ := ih (BhIrKernel.addInstr l {} idx) idx (idx + 1) (by omega) (isRun_single idx) hrest
      refine ⟨fun k' hk' => ?_, fun s e has hse he hst => ?_⟩
      · rcases List.mem_cons.mp hk' with rfl | hk'
        · exact ⟨a, idx, hk⟩
        · exact h1 k' hk'
      · rw [List.length_cons] at he
        by_cases hs : idx ≤ s
        · obtain ⟨k', hk', hrun⟩ := h2 s e hs hse (by omega) hst
          exact ⟨k', List.mem_cons_of_mem k hk', hrun⟩
        · -- a stretch that went on past the rejected instruction would have made it accepted
          have hlt : e < idx := by
            by_contra hge
            obtain ⟨hsys, hnop, i, hsi, hiq, hv⟩ := hst idx (by omega) (by omega)
            exact hacc (gentleAccept_iff.mpr ⟨hsys, hnop, i, (hk.mem i).mpr ⟨by omega, hiq⟩, hv⟩)
          exact ⟨k, List.mem_cons_self, a, idx, hk, has, hlt⟩

theorem kernelRuns_runs (l : List BhInstruction) :
    (∀ k ∈ kernelRuns l (gentleAccept l), ∃ a b, IsRun l k a b) ∧
      ∀ s e, s < e → e < l.length → Stretch l s e →
        ∃ k ∈ kernelRuns l (gentleAccept l), ∃ a b, IsRun l k a b ∧ a ≤ s ∧ e < b := by
  unfold kernelRuns
  cases hl : l.length with
  | zero => exact ⟨by simp, fun s e _ he => absurd he (Nat.not_lt_zero e)⟩
  | succ n =>
    rw [List.range_eq_range', List.range'_succ]
    obtain ⟨h1, h2⟩ := kernelRunsLoop_runs (List.range' 1 n) (BhIrKernel.addInstr l {} 0) 0 1 (by omega)
      (isRun_single 0) (by simp)
    refine ⟨h1, fun s e hse he hst => h2 s e (Nat.zero_le s) hse ?_ hst⟩
    simpa [Nat.add_comm] using he

/-- The kernels of `from_bhir` are legal exactly if the model accepts every stretch. -/
theorem kernelRuns_fusible_iff (model : FuseModel) (l : List BhInstruction) :
    (∀ k ∈ kernelRuns l (gentleAccept l), k.fusible model l = true) ↔ StretchesAccepted model l := by
  obtain ⟨hruns, hcover⟩ := kernelRuns_runs l
  obtain ⟨hflat, _⟩ := kernelRuns_spec l (gentleAccept l)
  constructor
  · intro h s i j hsi hij hj hst
    obtain ⟨k, hk, a, b, hrun, has, hjb⟩ := hcover s j (by omega) hj hst
    have hpair := GraphDW.pair_sublist_of_sorted hrun.sorted ((hrun.mem i).mpr ⟨by omega, by omega⟩)
      ((hrun.mem j).mpr ⟨by omega, hjb⟩) hij
    exact List.pairwise_iff_forall_sublist.mp (fusible_iff.mp (h k hk)) hpair
  · intro h k hk
    obtain ⟨a, b, hrun⟩ := hruns k hk
    rw [fusible_iff]
    refine hrun.sorted.imp_of_mem fun {i j} hi hj hij => ?_
    have hlen : j < l.length := by
      have hmem : j ∈ (kernelRuns l (gentleAccept l)).flatMap BhIrKernel.instrIndexes :=
        List.mem_flatMap.mpr ⟨k, hk, hj⟩
      rw [hflat] at hmem
      exact List.mem_range.mp hmem
    exact h a i j ((hrun.mem i).mp hi).1 hij hlen (hrun.stretch j ((hrun.mem j).mp hj).2)

end

/-! ## The fusers -/

section
variable {model : FuseModel} {l : List BhInstruction}

/-- Kernels that take in only instructions they are fusible with. -/
theorem kernelRunsLoop_fusible (hsym : FusibleSymm model l) {accept : BhIrKernel → ℕ → Bool}
    (hacc : ∀ k idx, accept k idx = true → k.fusibleInstr model l idx = true) (rest : List ℕ)
    (hrest : ∀ i ∈ rest, i < l.length) (k : BhIrKernel) (hk : ∀ i ∈ k.instrIndexes, i < l.length)
    (hfus : k.fusible model l = true) :
    ∀ k' ∈ kernelRunsLoop l accept k rest, k'.fusible model l = true := by
  induction rest generalizing k with
  | nil =>
    intro k' hk'
    rw [List.mem_singleton.mp hk']
    exact hfus
  | cons idx rest ih =>
    have hidx := hrest idx List.mem_cons_self
    have hrest' : ∀ i ∈ rest, i < l.length := fun i hi => hrest i (List.mem_cons_of_mem idx hi)
    rw [kernelRunsLoop]
    split_ifs with h
    · have hnew := List.all_eq_true.mp (hacc k idx h)
      refine ih hrest' (k.addInstr l idx) ?_ ?_
      · intro i hi
        rw [BhIrKernel.instrIndexes_addInstr, List.mem_append, List.mem_singleton] at hi
        exact hi.elim (hk i) fun e => e ▸ hidx
      · rw [fusible_iff, BhIrKernel.instrIndexes_addInstr]
        refine List.pairwise_append.mpr ⟨fusible_iff.mp hfus, List.pairwise_singleton _ _, ?_⟩
        intro i hi j hj
        rw [List.mem_singleton.mp hj, hsym _ (instrAt_mem (hk i hi)) _ (instrAt_mem hidx)]
        exact hnew i hi
    · intro k' hk'
      rcases List.mem_cons.mp hk' with rfl | hk'
      · exact hfus
      · refine ih hrest' (BhIrKernel.addInstr l {} idx) ?_ ?_ k' hk'
        · intro i hi
          rw [List.mem_singleton.mp hi]
          exact hidx
        · rw [fusible_iff]
          exact List.pairwise_singleton _ _

theorem kernelRuns_fusible (hsym : FusibleSymm model l) {accept : BhIrKernel → ℕ → Bool}
    (hacc : ∀ k idx, accept k idx = true → k.fusibleInstr model l idx = true) :
    ∀ k ∈ kernelRuns l accept, k.fusible model l = true := by
  unfold kernelRuns
  have hrange : ∀ i ∈ List.range l.length, i < l.length := fun i => List.mem_range.mp
  cases hl : List.range l.length with
  | nil => simp
  | cons idx rest =>
    rw [hl] at hrange
    refine kernelRunsLoop_fusible hsym hacc rest (fun i hi => hrange i (List.mem_cons_of_mem idx hi)) _ ?_ ?_
    · intro i hi
      rw [List.mem_singleton.mp hi]
      exact hrange idx List.mem_cons_self
    · rw [fusible_iff]
      exact List.pairwise_singleton _ _

theorem mem_of_mapM {α β : Type} {f : α → Option β} {xs : List α} {ys : List β} (h : xs.mapM f = some ys) :
    (∀ y ∈ ys, ∃ x ∈ xs, f x = some y) ∧ ∀ x ∈ xs, ∃ y ∈ ys, f x = some y := by
  induction xs generalizing ys with
  | nil =>
    obtain rfl : [] = ys := Option.some.inj h
    exact ⟨by simp, by simp⟩
  | cons x xs ih =>
    rw [List.mapM_cons] at h
    simp only [Option.bind_eq_bind, Option.bind_eq_some_iff, Option.pure_def, Option.some.injEq] at h
    obtain ⟨y, hy, ys, hys, rfl⟩ := h
    obtain ⟨h1, h2⟩ := ih hys
    refine ⟨fun z hz => ?_, fun z hz => ?_⟩
    · rcases List.mem_cons.mp hz with rfl | hz
      · exact ⟨x, List.mem_cons_self, hy⟩
      · obtain ⟨w, hw, hwz⟩ := h1 z hz
        exact ⟨w, List.mem_cons_of_mem x hw, hwz⟩
    · rcases List.mem_cons.mp hz with rfl | hz
      · exact ⟨y, List.mem_cons_self, hy⟩
      · obtain ⟨w, hw, hwz⟩ := h2 z hz
        exact ⟨w, List.mem_cons_of_mem y hw, hwz⟩

theorem mem_fillKernelList {boost : Boost} {g : GraphDW} (hs : g.Sound l) {ks : List BhIrKernel}
    (h : fillKernelList l boost g = some ks) :
    (∀ k ∈ ks, ∃ v, k = g.kernel v) ∧ ∀ v, (g.kernel v).isNoop l = false → g.kernel v ∈ ks := by
  obtain ⟨order, hsort, hperm, _⟩ := boost.topologicalSort_acyclic _ _ hs.inRange hs.valid.acyclic
  unfold fillKernelList at h
  rw [hsort, Option.map_some] at h
  obtain rfl := Option.some.inj h
  refine ⟨fun k hk => ?_, fun v hv => ?_⟩
  · obtain ⟨v, _, rfl⟩ := List.mem_map.mp (List.mem_filter.mp hk).1
    exact ⟨v, rfl⟩
  · have hlt : v < g.numVertices := by
      refine GraphDW.Live.lt fun hempty => ?_
      rw [BhIrKernel.isNoop, hempty] at hv
      cases hv
    refine List.mem_filter.mpr ⟨List.mem_map.mpr ⟨v, ?_, rfl⟩, by rw [hv]; rfl⟩
    exact List.mem_reverse.mpr (hperm.mem_iff.mpr (List.mem_range.mpr hlt))

/-- The kernels of a fuser on graphs are legal if those of `from_bhir` are. -/
theorem fusible_of_stretches (boost : Boost) (hsym : FusibleSymm model l) {fuser : Fuser}
    (hf : fuser.onGraph = true) (hst : StretchesAccepted model l) {ks : List BhIrKernel}
    (hks : doFusion boost model l fuser = some ks) : ∀ k ∈ ks, k.fusible model l = true := by
  obtain ⟨parts, dags, kss, _, hsplits, hdags, hkss, hdo, _⟩ := doFusion_parts boost model l hf
  obtain rfl := Option.some.inj (hks.symm.trans hdo)
  have hlegal := GraphDW.legal_fromBhir hsym ((kernelRuns_fusible_iff model l).mpr hst)
  obtain ⟨hs, _⟩ := sound_fromBhir model l
  intro k hk
  obtain ⟨ks, hks', hkks⟩ := List.mem_flatten.mp hk
  obtain ⟨d, hd, hfill⟩ := (mem_of_mapM hkss).1 ks hks'
  obtain ⟨d₀, hd₀, hpart⟩ := (mem_of_mapM hdags).1 d hd
  obtain ⟨vs, hvs, rfl⟩ := List.mem_map.mp hd₀
  have hsd₀ := GraphDW.Splits.sound hsplits hs hvs
  have hsd : d.Sound l := by
    obtain ⟨d', hd', hs', _⟩ := hsd₀.partFuser boost model fuser
    exact Option.some.inj (hd'.symm.trans hpart) ▸ hs'
  have hld := (GraphDW.legal_invariant hsym).partFuser boost fuser hsd₀
    ((GraphDW.partOf_subgraph _ vs).legal hlegal) hpart
  obtain ⟨v, rfl⟩ := (mem_fillKernelList hsd hfill).1 k hkks
  exact hld.kernels v

/-- Instructions that `from_bhir` puts together end up in one kernel. -/
theorem doFusion_together (boost : Boost) {fuser : Fuser} (hf : fuser.onGraph = true)
    {ks : List BhIrKernel} (hks : doFusion boost model l fuser = some ks) {k : BhIrKernel}
    (hk : k ∈ kernelRuns l (gentleAccept l)) {i j : ℕ} (hij : [i, j].Sublist k.instrIndexes)
    (hop : (instrAt l j).opcode ≠ .none) : ∃ k' ∈ ks, [i, j].Sublist k'.instrIndexes := by
  obtain ⟨parts, dags, kss, _, hsplits, hdags, hkss, hdo, _⟩ := doFusion_parts boost model l hf
  obtain rfl := Option.some.inj (hks.symm.trans hdo)
  obtain ⟨hs, _⟩ := sound_fromBhir model l
  obtain ⟨v, hv⟩ := GraphDW.together_fromBhir model hk hij
  have hmem : i ∈ ((fromBhir l model).kernel v).instrIndexes := hv.subset List.mem_cons_self
  obtain ⟨vs, hvs, hvvs⟩ := hsplits.cover v (GraphDW.Live.lt (List.ne_nil_of_mem hmem))
  have hsd₀ := GraphDW.Splits.sound hsplits hs hvs
  obtain ⟨d, hd, hpart⟩ := (mem_of_mapM hdags).2 _ (List.mem_map.mpr ⟨vs, hvs, rfl⟩)
  have hsd : d.Sound l := by
    obtain ⟨d', hd', hs', _⟩ := hsd₀.partFuser boost model fuser
    exact Option.some.inj (hd'.symm.trans hpart) ▸ hs'
  obtain ⟨w, hw⟩ := (GraphDW.together_invariant i j).partFuser boost fuser hsd₀
    ((GraphDW.partOf_subgraph _ vs).together hvvs hv) hpart
  obtain ⟨ks, hks', hfill⟩ := (mem_of_mapM hkss).2 d hd
  have hnoop : (d.kernel w).isNoop l = false := by
    rw [BhIrKernel.isNoop, List.all_eq_false]
    exact ⟨j, hw.subset (by simp), by simpa using hop⟩
  exact ⟨d.kernel w, List.mem_flatten.mpr ⟨ks, hks', (mem_fillKernelList hsd hfill).2 w hnoop⟩, hw⟩

end

/-- Where `check_fusible` does not depend on the order of its arguments, every kernel that a fuser
makes is legal exactly if the fuser does not start from the graph of `from_bhir` or the model accepts
the system instructions that `from_bhir` puts into kernels untested. -/
theorem doFusion_fusible_iff (boost : Boost) (model : FuseModel) (l : List BhInstruction) (fuser : Fuser)
    (hsym : FusibleSymm model l) :
    (∃ ks, doFusion boost model l fuser = some ks ∧ ∀ k ∈ ks, k.fusible model l = true) ↔
      (fuser.onGraph = true → StretchesAccepted model l) := by
  obtain ⟨ks, hks, _⟩ := doFusion_schedule boost model l fuser
  constructor
  · rintro ⟨ks', hks', hfus⟩ hf
    rw [← kernelRuns_fusible_iff]
    intro k hk
    obtain ⟨a, b, hrun⟩ := (kernelRuns_runs l).1 k hk
    rw [fusible_iff]
    refine List.pairwise_iff_forall_sublist.mpr fun {i j} hij => ?_
    have hi := (hrun.mem i).mp (hij.subset List.mem_cons_self)
    have hj := (hrun.mem j).mp (hij.subset (by simp))
    have hlt : i < j := List.pairwise_iff_forall_sublist.mp hrun.sorted hij
    -- the later of the two is a system instruction with an operand, so its kernel is not dropped
    obtain ⟨_, hnop, _⟩ := hrun.stretch j hj.2 j (by omega) (le_refl j)
    have hop : (instrAt l j).opcode ≠ .none := by
      intro hnone
      rw [hnone] at hnop
      cases hnop
    obtain ⟨k', hk', hij'⟩ := doFusion_together boost hf hks' hk hij hop
    exact List.pairwise_iff_forall_sublist.mp (fusible_iff.mp (hfus k' hk')) hij'
  · intro h
    refine ⟨ks, hks, ?_⟩
    cases hf : fuser.onGraph with
    | true => exact fusible_of_stretches boost hsym hf (h hf) hks
    | false =>
      cases fuser with
      | singleton =>
        obtain rfl := Option.some.inj hks
        exact kernelRuns_fusible hsym (by simp)
      | topological =>
        obtain rfl := Option.some.inj hks
        exact kernelRuns_fusible hsym fun k idx hacc => hacc
      | gentle => cases hf
      | greedy => cases hf
      | optimal => cases hf

/-- `y = x + s` on vectors of four elements with `s` broadcast, then `BH_FREE s`. -/
def broadcastThenFree : List BhInstruction :=
  let vec : ℕ → BhView := fun addr => ⟨some ⟨addr, .int64, 4⟩, 0, [⟨4, 1⟩]⟩
  let c : BhView := ⟨none, 0, []⟩
  [⟨.add, vec 1, vec 0, ⟨some ⟨2, .int64, 1⟩, 0, [⟨4, 0⟩]⟩, .int .int64 0⟩,
    ⟨.free, ⟨some ⟨2, .int64, 1⟩, 0, [⟨1, 1⟩]⟩, c, c, .int .int64 0⟩]

theorem fusible_broadcastThenFree : ∃ ks, doFusion plainBoost .noXsweepScalarSeperate broadcastThenFree
    .topological = some ks ∧ ∀ k ∈ ks, k.fusible .noXsweepScalarSeperate broadcastThenFree = true :=
  (doFusion_fusible_iff plainBoost .noXsweepScalarSeperate broadcastThenFree .topological
    (by unfold FusibleSymm; decide)).mpr fun h => by cases h

/-- `NO_XSWEEP_SCALAR_SEPERATE` does not make an exception for the one-element `BH_FREE`. -/
theorem not_fusible_broadcastThenFree : ¬ ∃ ks, doFusion plainBoost .noXsweepScalarSeperate
    broadcastThenFree .gentle = some ks ∧
      ∀ k ∈ ks, k.fusible .noXsweepScalarSeperate broadcastThenFree = true := by
  rintro ⟨ks, hks, hfus⟩
  have hrejected : ((doFusion plainBoost .noXsweepScalarSeperate broadcastThenFree .gentle).all fun ks =>
      ks.all fun k => k.fusible .noXsweepScalarSeperate broadcastThenFree) = false := by
    decide +kernel
  rw [hks, Option.all_some, List.all_eq_true.mpr hfus] at hrejected
  cases hrejected

end Bohrium
