import Bohrium.Dag.FuseCache

/-! # A cached partition gives back the computed kernels

The cache keeps the indices of the instructions and adds them to empty kernels on a hit. The fusers
append to kernels, copy one kernel over another, clear and replace them. Whatever they do, a kernel
that has instructions is what adding these one by one to an empty kernel gives, so a hit gives back
the kernels with everything in them. -/
namespace Bohrium
set_option autoImplicit false

namespace GraphDW
variable {model : FuseModel} {l : List BhInstruction} {g : GraphDW}

/-- Every kernel with instructions is a replay. A cleared kernel keeps its sweeps and constants. -/
def Replayed (l : List BhInstruction) (g : GraphDW) : Prop := ∀ v, g.Live v → (g.kernel v).Replayed l

theorem Replayed.mergeVertices (h : g.Replayed l) {a b : ℕ} {aBeforeB : Bool} (hm : Mergeable g a b aBeforeB) :
    (g.mergeVertices model l a b aBeforeB).Replayed l := by
  have ha := hm.live_left.lt
  have hb := hm.live_right.lt
  intro v hv
  by_cases hvb : v = b
  · subst hvb
    exact absurd (kernel_mergeVertices model aBeforeB ha hb v).2.2 hv
  have hkernel := kernel_mergeVertices_of_ne (l := l) model aBeforeB ha hb hvb
  by_cases hva : v = a
  · rw [if_pos hva] at hkernel
    rw [hkernel]
    split_ifs
    · exact (h a hm.live_left).foldl _
    · exact (h b hm.live_right).foldl _
  · rw [if_neg hva] at hkernel
    unfold Live at hv
    rw [hkernel] at hv ⊢
    exact h v hv

theorem PartOf.replayed {g' : GraphDW} {vs : List ℕ} (hp : PartOf g' g vs) (h : g.Replayed l) :
    g'.Replayed l := by
  intro v hv
  have hlt : v < vs.length := hp.numVertices_eq ▸ hv.lt
  unfold Live at hv
  rw [hp.kernel_eq hlt] at hv ⊢
  exact h _ hv

/-- Replays are an invariant of the fusers. -/
theorem replayed_invariant : FuserInvariant model l (Replayed l) where
  gentle := fun g v w wBeforeV hs h hse _ => h.mergeVertices (mergeable_of_singleEnding hs hse)
  greedy := by
    intro g e he hs h
    obtain ⟨hne, h1, h2⟩ := hs.ends e he
    rcases greedyStep_cases model hs hne h1 h2 with ⟨heq, _⟩ | ⟨a, b, heq, hm, _⟩ <;> rw [heq]
    · exact h
    · exact h.mergeVertices hm
  cleared := fun g hs h => (partOf_removeClearedVertices hs).replayed h
  reduced := fun g h => h
  collapsed := fun g loc order g' _ _ hc v _ => hc.replayed v
  unweighted := fun g h => h

end GraphDW

section
variable {l : List BhInstruction}

theorem kernelRunsLoop_replayed (accept : BhIrKernel → ℕ → Bool) (k : BhIrKernel) (rest : List ℕ)
    (hk : k.Replayed l) : ∀ k' ∈ kernelRunsLoop l accept k rest, k'.Replayed l := by
  induction rest generalizing k with
  | nil =>
    intro k' hk'
    rw [List.mem_singleton.mp hk']
    exact hk
  | cons idx rest ih =>
    rw [kernelRunsLoop]
    split_ifs
    · exact ih _ (hk.foldl [idx])
    · intro k' hk'
      rcases List.mem_cons.mp hk' with rfl | hk'
      · exact hk
      · exact ih _ ((BhIrKernel.replayed_empty l).foldl [idx]) k' hk'

theorem kernelRuns_replayed (l : List BhInstruction) (accept : BhIrKernel → ℕ → Bool) :
    ∀ k ∈ kernelRuns l accept, k.Replayed l := by
  unfold kernelRuns
  cases List.range l.length with
  | nil => simp
  | cons idx rest =>
    exact kernelRunsLoop_replayed accept _ rest ((BhIrKernel.replayed_empty l).foldl [idx])

theorem replayed_fromBhir (model : FuseModel) (l : List BhInstruction) : (fromBhir l model).Replayed l := by
  obtain ⟨_, _, hkernels, _⟩ := GraphDW.fromBhir_induction model l (fun _ => True) trivial
    fun _ _ _ _ _ _ _ _ => trivial
  intro v hv
  have hlt : v < (kernelRuns l (gentleAccept l)).length := hkernels ▸ hv.lt
  unfold GraphDW.kernel
  rw [hkernels, List.getD_eq_getElem _ _ hlt]
  exact kernelRuns_replayed l _ _ (List.getElem_mem hlt)

/-- A kernel that is written out has instructions. -/
theorem live_of_fillKernelList {boost : Boost} {g : GraphDW} {ks : List BhIrKernel} {k : BhIrKernel}
    (h : fillKernelList l boost g = some ks) (hk : k ∈ ks) : ∃ v, g.Live v ∧ k = g.kernel v := by
  obtain ⟨order, _, rfl⟩ := Option.map_eq_some_iff.mp h
  obtain ⟨hmem, hnoop⟩ := List.mem_filter.mp hk
  obtain ⟨v, _, rfl⟩ := List.mem_map.mp hmem
  refine ⟨v, fun hempty => ?_, rfl⟩
  rw [BhIrKernel.isNoop, hempty] at hnoop
  cases hnoop

/-- Every kernel that a fuser makes is a replay of its instructions. -/
theorem doFusion_replayed (boost : Boost) (model : FuseModel) (fuser : Fuser) {ks : List BhIrKernel}
    (hks : doFusion boost model l fuser = some ks) : ∀ k ∈ ks, k.Replayed l := by
  cases hf : fuser.onGraph with
  | false =>
    cases fuser with
    | singleton => exact Option.some.inj hks ▸ kernelRuns_replayed l _
    | topological => exact Option.some.inj hks ▸ kernelRuns_replayed l _
    | gentle => cases hf
    | greedy => cases hf
    | optimal => cases hf
  | true =>
    obtain ⟨hs, _⟩ := sound_fromBhir model l
    obtain ⟨parts, dags, kss, _, hsplits, hdags, hkss, hdo, _⟩ := doFusion_parts boost model l hf
    obtain rfl := Option.some.inj (hks.symm.trans hdo)
    intro k hk
    obtain ⟨ks, hks', hkks⟩ := List.mem_flatten.mp hk
    obtain ⟨d, hd, hfill⟩ := (mem_of_mapM hkss).1 ks hks'
    obtain ⟨d₀, hd₀, hpart⟩ := (mem_of_mapM hdags).1 d hd
    obtain ⟨vs, hvs, rfl⟩ := List.mem_map.mp hd₀
    have hsd₀ := GraphDW.Splits.sound hsplits hs hvs
    have hd := GraphDW.replayed_invariant.partFuser boost fuser hsd₀
      ((GraphDW.partOf_subgraph _ vs).replayed (replayed_fromBhir model l)) hpart
    obtain ⟨v, hv, rfl⟩ := live_of_fillKernelList hfill hkks
    exact hd v hv

/-- Replaying a kernel list on the instructions it was made from gives the list back. -/
theorem fillKernels_replayed {ks : List BhIrKernel} (h : ∀ k ∈ ks, k.Replayed l) :
    FuseCache.fillKernels l (ks.map BhIrKernel.instrIndexes) = ks := by
  unfold FuseCache.fillKernels
  rw [List.map_map]
  calc ks.map ((fun is => is.foldl (BhIrKernel.addInstr l) {}) ∘ BhIrKernel.instrIndexes)
      = ks.map id := List.map_congr_left fun k hk => (h k hk).symm
    _ = ks := List.map_id ks

end

/-- Whatever the fuser, the fuse model, the graph library's choices and the threads: the kernel list
computed for a batch is what an active cache returns for this batch once the list is inserted. -/
theorem lookup_insert_doFusion (boost : Boost) (model : FuseModel) (l : List BhInstruction) (fuser : Fuser)
    (c : FuseCache) (hactive : c.deactivated = false) : ∃ ks, doFusion boost model l fuser = some ks ∧
      (c.insert (batchHash model l) ks).lookup (batchHash model l) l = some ks := by
  obtain ⟨ks, hks, _⟩ := doFusion_schedule boost model l fuser
  refine ⟨ks, hks, ?_⟩
  rw [FuseCache.lookup_insert, hactive, fillKernels_replayed (doFusion_replayed boost model fuser hks)]
  rfl

theorem lookup_insert_doFusion_separateVectors : ∃ ks,
    doFusion plainBoost .sameShape separateVectors .greedy = some ks ∧
      (FuseCache.insert {} (batchHash .sameShape separateVectors) ks).lookup
        (batchHash .sameShape separateVectors) separateVectors = some ks :=
  lookup_insert_doFusion plainBoost .sameShape separateVectors .greedy {} rfl

end Bohrium
