import Bohrium.Fusion.MergeCost

/-! # The saving of a merge

`merge_cost_savings` against the cost of the merged kernel. It counts a view that the second kernel reads
once for every aligned view of the first, and every output of the first that the second discards, also
when the array is synchronised and stays; it leaves out the views that both write. -/
namespace Bohrium
open Engine
set_option autoImplicit false

theorem synced_singleton {i : BhInstruction} {x : Option BhBase} :
    Synced [i] x ↔ i.opcode = .sync ∧ i.operand0.base = x := by
  simp only [Synced, List.mem_singleton, exists_eq_left]

theorem discarded_singleton {i : BhInstruction} {x : Option BhBase} :
    Discarded [i] x ↔ i.opcode = .discard ∧ i.operand0.base = x := by
  simp only [Discarded, List.mem_singleton, exists_eq_left]

theorem writtenView_singleton {i : BhInstruction} {v : BhView} :
    WrittenView [i] v ↔ i.isSystem = false ∧ i.operand0 = v := by
  simp only [WrittenView, List.mem_singleton, exists_eq_left]

namespace Tally

variable {t : Tally} {is : List BhInstruction} {v : BhView}

/-! ## What a list of instructions leaves -/

theorem mem_inputs_reads {vs : List BhView} (h : v ∈ (vs.foldl read t).inputs) :
    v ∈ t.inputs ∨ v ∈ vs ∧ bhIsConstant v = false := by
  induction vs generalizing t with
  | nil => exact Or.inl h
  | cons u vs ih =>
    rw [List.foldl_cons] at h
    rcases ih h with h | ⟨hv, hc⟩
    · unfold read at h
      split_ifs at h with hold
      · exact Or.inl h
      · rcases List.mem_append.mp h with h | h
        · exact Or.inl h
        · rw [not_or, Bool.not_eq_true] at hold
          rw [List.mem_singleton.mp h]
          exact Or.inr ⟨List.mem_cons_self, hold.1⟩
    · exact Or.inr ⟨List.mem_cons_of_mem u hv, hc⟩

theorem inputs_system {i : BhInstruction} (hs : i.isSystem = true) : (t.note i).inputs = t.inputs := by
  rcases kinds i with hs' | hop | hop | hop
  · rw [hs] at hs'
    cases hs'
  · rw [note_sync hop]
  · rw [note_discard hop, discard]
    split_ifs <;> rfl
  · rw [note_idle hop]

theorem mem_inputs_after (h : v ∈ (({} : Tally).after is).inputs) :
    bhIsConstant v = false ∧ ∃ j ∈ is, j.isSystem = false ∧ v ∈ j.operands := by
  induction is using List.reverseRecOn with
  | nil => cases h
  | append_singleton is i ih =>
    rw [after_concat] at h
    have hold : v ∈ (({} : Tally).after is).inputs →
        bhIsConstant v = false ∧ ∃ j ∈ is ++ [i], j.isSystem = false ∧ v ∈ j.operands := by
      intro h
      obtain ⟨hc, j, hj, hv⟩ := ih h
      exact ⟨hc, j, List.mem_append_left _ hj, hv⟩
    cases hs : i.isSystem with
    | true =>
      rw [inputs_system hs] at h
      exact hold h
    | false =>
      rw [note_operation hs] at h
      rcases mem_inputs_reads (show v ∈ (i.inputs.foldl read _).inputs from h) with h | ⟨hv, hc⟩
      · exact hold h
      · exact ⟨hc, i, by simp, hs, List.mem_of_mem_tail hv⟩

/-- The views seen are those read first and those written. -/
def SeenBy (t : Tally) (written : BhView → Prop) : Prop :=
  ∀ s, s ∈ t.seen ↔ (∃ u ∈ t.inputs, bhViewSimplify u = s) ∨ ∃ u, written u ∧ bhViewSimplify u = s

theorem SeenBy.reads {written : BhView → Prop} (h : t.SeenBy written) (vs : List BhView) :
    (vs.foldl Tally.read t).SeenBy written := by
  induction vs generalizing t with
  | nil => exact h
  | cons u vs ih =>
    apply ih
    unfold Tally.read
    split_ifs
    · exact h
    · intro s
      simp only [List.mem_append, List.mem_singleton, or_and_right, exists_or, exists_eq_left]
      rw [h s, or_assoc, or_assoc, eq_comm, or_comm (a := bhViewSimplify u = s)]

theorem seenBy_after (is : List BhInstruction) : (({} : Tally).after is).SeenBy (WrittenView is) := by
  induction is using List.reverseRecOn with
  | nil => intro s; simp [after, WrittenView]
  | append_singleton is i ih =>
    rw [after_concat]
    intro s
    simp only [writtenView_append, or_and_right, exists_or]
    cases hs : i.isSystem with
    | true =>
      have hseen : ((({} : Tally).after is).note i).seen = (({} : Tally).after is).seen := by
        rcases kinds i with hs' | hop | hop | hop
        · rw [hs] at hs'
          cases hs'
        · rw [note_sync hop]
        · rw [note_discard hop, discard]
          split_ifs <;> rfl
        · rw [note_idle hop]
      rw [hseen, inputs_system hs, ih s]
      simp [WrittenView, hs]
    | false =>
      rw [note_operation hs]
      show s ∈ setInsert (bhViewSimplify i.operand0) (i.inputs.foldl Tally.read _).seen ↔
        (∃ u ∈ (i.inputs.foldl Tally.read _).inputs, bhViewSimplify u = s) ∨ _
      have hone : (∃ u, WrittenView [i] u ∧ bhViewSimplify u = s) ↔ s = bhViewSimplify i.operand0 := by
        simp only [writtenView_singleton, hs, true_and, exists_eq_left']
        exact eq_comm
      rw [mem_setInsert, ih.reads i.inputs s, hone, or_comm, or_assoc]

/-- What is left of the outputs: an array discarded and not synchronised is gone. -/
theorem mem_outputs_after (hbase : v.base ≠ none) (hused : NoUseAfterDiscard is) :
    v ∈ (t.after is).outputs ↔ (v ∈ t.outputs ∨ WrittenView is v) ∧
      ¬ (Discarded is v.base ∧ v.base ∉ t.syncs ∧ ¬ Synced is v.base) := by
  induction is using List.reverseRecOn with
  | nil => simp [after, WrittenView, Discarded]
  | append_singleton is i ih =>
    have hlive : ∀ u ∈ i.operands, u.base = v.base → ¬ Discarded is v.base := by
      rintro u hu heq ⟨d, hd, hop, hdb⟩
      obtain ⟨b, hb⟩ := Option.ne_none_iff_exists'.mp hbase
      rw [hb] at hdb heq
      exact (List.pairwise_append.mp hused).2.2 d hd i List.mem_cons_self hop b hdb u hu heq
    rw [after_concat, writtenView_append, discarded_append, synced_append, writtenView_singleton, discarded_singleton,
      synced_singleton]
    specialize ih (List.pairwise_append.mp hused).1
    rcases kinds i with hs | hop | hop | hop
    · have hd : i.opcode ≠ .discard := fun hop => by rw [BhInstruction.isSystem, hop] at hs; cases hs
      have hsy : i.opcode ≠ .sync := fun hop => by rw [BhInstruction.isSystem, hop] at hs; cases hs
      rw [mem_outputs_operation hs, ih]
      by_cases hv : i.operand0 = v
      · have hno := hlive i.operand0 (BhInstruction.operand0_mem (bhOperands_ne_zero_of_not_system hs)) (by rw [hv])
        simp [hno, hd, hv, hs]
      · simp [hv, Ne.symm hv, hd, hsy]
    · rw [note_sync hop]
      show v ∈ (t.after is).outputs ↔ _
      rw [ih]
      by_cases heq : i.operand0.base = v.base
      · have hno := hlive i.operand0 (by simp [BhInstruction.operands, hop, bhOperands]) heq
        simp [hno, hop, BhInstruction.isSystem, bhOpcodeIsSystem]
      · simp [heq, hop, BhInstruction.isSystem, bhOpcodeIsSystem]
    · rw [mem_outputs_discard hop, ih, mem_syncs_after]
      by_cases heq : i.operand0.base = v.base
      · simp only [heq, hop, BhInstruction.isSystem, bhOpcodeIsSystem, ne_eq, not_true_eq_false, or_false, reduceCtorEq,
          false_and, true_and, and_true, or_true, Bool.true_eq_false]
        rw [and_assoc]
        apply and_congr_right
        intro _
        rw [not_and_or, ← not_or, not_not, and_iff_right_iff_imp]
        exact Or.inr
      · simp [heq, Ne.symm heq, hop, BhInstruction.isSystem, bhOpcodeIsSystem]
    · rw [note_idle hop, ih]
      rcases hop with hop | hop
      · simp [hop, BhInstruction.isSystem, bhOpcodeIsSystem]
      · simp [hop, BhInstruction.isSystem, bhOpcodeIsSystem]

end Tally

/-! ## What the saving counts -/

namespace BhIrKernel

/-- The kernel discards the array. -/
def drops (l : List BhInstruction) (k : BhIrKernel) (x : Option BhBase) : Bool :=
  k.instrIndexes.any fun idx => (instrAt l idx).opcode == .discard && (instrAt l idx).operand0.base == x

/-- How many views of the kernel are aligned with `v`. -/
def alignedWith (k : BhIrKernel) (v : BhView) : ℕ := ((k.outputSet ++ k.inputSet).filter (bhViewAligned v)).length

/-- The views that the operations of the kernel write. -/
def writes (l : List BhInstruction) (k : BhIrKernel) : List BhView :=
  ((kernelInstrs l k.instrIndexes).filter fun i => !i.isSystem).map BhInstruction.operand0

/-- What `other` reads and finds more than once in `k`. -/
def countedTwice (k other : BhIrKernel) : ℕ :=
  (other.inputSet.map fun v => (k.alignedWith v - 1) * costOfView v).sum

/-- Outputs of `k` that `other` discards but that stay, as one of the two synchronises them. -/
def countedSynced (l : List BhInstruction) (k other : BhIrKernel) : ℕ :=
  ((k.outputSet.filter fun v => other.drops l v.base ∧ (v.base ∈ k.syncs ∨ v.base ∈ other.syncs)).map costOfView).sum

/-- What `other` writes and discards and would alone not pay for, while `k` synchronises it. -/
def keptSynced (l : List BhInstruction) (k other : BhIrKernel) : ℕ :=
  (((other.writes l).dedup.filter fun v => other.drops l v.base ∧ v.base ∈ k.syncs ∧ v.base ∉ other.syncs ∧
    v ∉ k.outputSet).map costOfView).sum

/-- Outputs of both. -/
def writtenTwice (k other : BhIrKernel) : ℕ := ((k.outputSet.filter (· ∈ other.outputSet)).map costOfView).sum

variable {l : List BhInstruction} {k other : BhIrKernel}

theorem drops_iff {x : Option BhBase} : k.drops l x = true ↔ Discarded (kernelInstrs l k.instrIndexes) x := by
  simp [drops, Discarded, kernelInstrs]

theorem mem_writes {v : BhView} : v ∈ k.writes l ↔ WrittenView (kernelInstrs l k.instrIndexes) v := by
  simp [writes, WrittenView, and_assoc]

theorem priceDrop_eq : priceDrop l other k = (other.inputSet.map fun v => k.alignedWith v * costOfView v).sum +
    ((k.outputSet.filter fun o => other.drops l o.base).map costOfView).sum := rfl

end BhIrKernel

section Merge

variable {l : List BhInstruction} {k other : BhIrKernel} (hk : k.Replayed l) (hother : other.Replayed l)
  (hused : NoUseAfterDiscard (kernelInstrs l k.instrIndexes ++ kernelInstrs l other.instrIndexes))
  (hout : ∀ i ∈ kernelInstrs l k.instrIndexes ++ kernelInstrs l other.instrIndexes, i.isSystem = false →
    bhIsConstant i.operand0 = false)

include hk hother hused hout in
/-- A view read by `other` is seen in `k` when `k` still has an aligned one. -/
theorem alignedWith_pos {v : BhView} (hv : v ∈ other.inputSet) :
    0 < k.alignedWith v ↔ bhViewSimplify v ∈ (({} : Tally).after (kernelInstrs l k.instrIndexes)).seen := by
  rw [(tallied_of_replayed hother).inputs] at hv
  obtain ⟨hc, j, hj, _, hvj⟩ := Tally.mem_inputs_after hv
  have hbase : v.base ≠ none := by
    intro hb
    rw [bhIsConstant, hb] at hc
    cases hc
  have hlive : ¬ Discarded (kernelInstrs l k.instrIndexes) v.base := by
    rintro ⟨d, hd, hop, hdb⟩
    obtain ⟨b, hb⟩ := Option.ne_none_iff_exists'.mp hbase
    rw [hb] at hdb
    exact (List.pairwise_append.mp hused).2.2 d hd j hj hop b hdb v hvj hb
  have hsame : ∀ u, bhViewSimplify u = bhViewSimplify v → u.base = v.base := by
    intro u h
    rw [← base_bhViewSimplify u, h, base_bhViewSimplify]
  have haligned : ∀ u, bhIsConstant u = false → (bhViewAligned v u = true ↔ bhViewSimplify u = bhViewSimplify v) := by
    intro u hu
    rw [bhViewAligned, hc, hu, Bool.false_or, Bool.false_or, beq_iff_eq]
    exact eq_comm
  rw [Tally.seenBy_after, BhIrKernel.alignedWith, List.length_pos_iff_exists_mem]
  simp only [List.mem_filter, List.mem_append]
  rw [(tallied_of_replayed hk).inputs, (tallied_of_replayed hk).outputs]
  have hused' := (List.pairwise_append.mp hused).1
  constructor
  · rintro ⟨u, hu | hu, hal⟩
    · have hw := Tally.writtenView_of_mem_outputs hu
      obtain ⟨i, hi, hs, rfl⟩ := hw
      exact Or.inr ⟨_, ⟨i, hi, hs, rfl⟩, (haligned _ (hout i (List.mem_append_left _ hi) hs)).mp hal⟩
    · exact Or.inl ⟨u, hu, (haligned u (Tally.mem_inputs_after hu).1).mp hal⟩
  · rintro (⟨u, hu, heq⟩ | ⟨u, hw, heq⟩)
    · exact ⟨u, Or.inr hu, (haligned u (Tally.mem_inputs_after hu).1).mpr heq⟩
    · have hcu : bhIsConstant u = false := by
        rw [bhIsConstant, hsame u heq, ← bhIsConstant]
        exact hc
      refine ⟨u, Or.inl ?_, (haligned u hcu).mpr heq⟩
      rw [Tally.mem_outputs_after (by rw [hsame u heq]; exact hbase) hused', hsame u heq]
      exact ⟨Or.inr hw, fun h => hlive h.1⟩

include hk hother hused hout in
/-- The inputs of `other` that the merged kernel need not read. -/
theorem sum_inputs_merged :
    (other.inputSet.map fun v => k.alignedWith v * BhIrKernel.costOfView v).sum +
        ((other.inputSet.filter fun v => bhViewSimplify v ∉
          (({} : Tally).after (kernelInstrs l k.instrIndexes)).seen).map BhIrKernel.costOfView).sum =
      k.countedTwice other + (other.inputSet.map BhIrKernel.costOfView).sum := by
  have hpos : ∀ v ∈ other.inputSet, 0 < k.alignedWith v ↔ _ := fun v hv => alignedWith_pos hk hother hused hout hv
  unfold BhIrKernel.countedTwice
  obtain ⟨vs, hvs⟩ : ∃ vs, vs = other.inputSet := ⟨_, rfl⟩
  rw [← hvs] at hpos ⊢
  clear hvs
  induction vs with
  | nil => rfl
  | cons v vs ih =>
    rw [List.forall_mem_cons] at hpos
    specialize ih hpos.2
    simp only [List.map_cons, List.sum_cons]
    by_cases hseen : bhViewSimplify v ∈ (({} : Tally).after (kernelInstrs l k.instrIndexes)).seen
    · have hsub : k.alignedWith v * BhIrKernel.costOfView v =
          (k.alignedWith v - 1) * BhIrKernel.costOfView v + BhIrKernel.costOfView v := by
        rw [← Nat.succ_mul, Nat.succ_eq_add_one, Nat.sub_add_cancel (hpos.1.mpr hseen)]
      rw [List.filter_cons_of_neg (by simpa using hseen)]
      omega
    · have hzero : k.alignedWith v = 0 := by
        have := mt hpos.1.mp hseen
        omega
      rw [List.filter_cons_of_pos (by simpa using hseen), hzero]
      simp only [List.map_cons, List.sum_cons, zero_mul, Nat.zero_sub]
      omega

/-- Every view that an operation of the list writes is one of an array. -/
theorem base_ne_none {is : List BhInstruction} (hout : ∀ i ∈ is, i.isSystem = false → bhIsConstant i.operand0 = false)
    {v : BhView} (hv : WrittenView is v) : v.base ≠ none := by
  obtain ⟨i, hi, hs, rfl⟩ := hv
  intro hb
  have hc := hout i hi hs
  rw [bhIsConstant, hb] at hc
  cases hc

include hk hother hused hout in
/-- The outputs of the two kernels, against those of the merged one. -/
theorem perm_outputs_merged :
    (k.outputSet ++ other.outputSet ++ (other.writes l).dedup.filter fun v => other.drops l v.base ∧ v.base ∈ k.syncs ∧
        v.base ∉ other.syncs ∧ v ∉ k.outputSet).Perm
      (((other.instrIndexes.foldl (BhIrKernel.addInstr l) k).outputSet ++ k.outputSet.filter fun v =>
        other.drops l v.base ∧ ¬ (v.base ∈ k.syncs ∨ v.base ∈ other.syncs)) ++
          k.outputSet.filter (· ∈ other.outputSet)) := by
  have ha := tallied_of_replayed hk
  have hb := tallied_of_replayed hother
  have hab := @tallied_merged l k other hk
  have hnodup : ∀ is, (({} : Tally).after is).outputs.Nodup := Tally.nodup_outputs_after List.nodup_nil
  have hak : k.outputSet.Nodup := ha.outputs ▸ hnodup _
  have hbk : other.outputSet.Nodup := hb.outputs ▸ hnodup _
  have habk : (other.instrIndexes.foldl (BhIrKernel.addInstr l) k).outputSet.Nodup := hab.outputs ▸ hnodup _
  rw [List.perm_iff_count]
  intro v
  simp only [List.count_append]
  rw [hak.count, hbk.count, ((List.nodup_dedup _).filter _).count, habk.count, (hak.filter _).count,
    (hak.filter _).count]
  have hab' : (other.instrIndexes.foldl (BhIrKernel.addInstr l) k).outputSet =
      ((({} : Tally).after (kernelInstrs l k.instrIndexes)).after (kernelInstrs l other.instrIndexes)).outputs := by
    rw [hab.outputs, Tally.after_append]
  by_cases hw : WrittenView (kernelInstrs l k.instrIndexes ++ kernelInstrs l other.instrIndexes) v
  · have hbase := base_ne_none hout hw
    have hused' := (List.pairwise_append.mp hused).2.1
    have hB : v ∈ other.outputSet ↔ WrittenView (kernelInstrs l other.instrIndexes) v ∧
        ¬ (Discarded (kernelInstrs l other.instrIndexes) v.base ∧ v.base ∉ other.syncs) := by
      rw [hb.outputs, Tally.mem_outputs_after hbase hused', hb.syncs, Tally.mem_syncs_after]
      simp
    have hAB : v ∈ (other.instrIndexes.foldl (BhIrKernel.addInstr l) k).outputSet ↔
        (v ∈ k.outputSet ∨ WrittenView (kernelInstrs l other.instrIndexes) v) ∧
          ¬ (Discarded (kernelInstrs l other.instrIndexes) v.base ∧ v.base ∉ k.syncs ∧ v.base ∉ other.syncs) := by
      rw [hab', Tally.mem_outputs_after hbase hused', ← ha.outputs, ← ha.syncs, hb.syncs, Tally.mem_syncs_after]
      simp
    by_cases hA : v ∈ k.outputSet <;> by_cases hW : WrittenView (kernelInstrs l other.instrIndexes) v <;>
      by_cases hD : Discarded (kernelInstrs l other.instrIndexes) v.base <;> by_cases hkS : v.base ∈ k.syncs <;>
        by_cases hoS : v.base ∈ other.syncs <;>
          simp [BhIrKernel.drops_iff, BhIrKernel.mem_writes, hB, hAB, hA, hW, hD, hkS, hoS]
  · rw [writtenView_append, not_or] at hw
    have hA : v ∉ k.outputSet := by
      rw [ha.outputs]
      exact fun h => hw.1 (Tally.writtenView_of_mem_outputs h)
    have hB : v ∉ other.outputSet := by
      rw [hb.outputs]
      exact fun h => hw.2 (Tally.writtenView_of_mem_outputs h)
    have hAB : v ∉ (other.instrIndexes.foldl (BhIrKernel.addInstr l) k).outputSet := by
      rw [hab.outputs]
      exact fun h => (writtenView_append.mp (Tally.writtenView_of_mem_outputs h)).elim hw.1 hw.2
    simp [List.mem_filter, BhIrKernel.mem_writes, hA, hB, hAB, hw.2]

theorem sum_filter_split (f : BhView → ℕ) (p : BhView → Bool) (q : BhView → Prop) [DecidablePred q] (vs : List BhView) :
    ((vs.filter p).map f).sum =
      ((vs.filter fun v => p v ∧ q v).map f).sum + ((vs.filter fun v => p v ∧ ¬ q v).map f).sum := by
  induction vs with
  | nil => rfl
  | cons v vs ih =>
    cases hp : p v with
    | false =>
      rw [List.filter_cons_of_neg (by simp [hp]), List.filter_cons_of_neg (by simp [hp]),
        List.filter_cons_of_neg (by simp [hp]), ih]
    | true =>
      by_cases hq : q v
      · rw [List.filter_cons_of_pos hp, List.filter_cons_of_pos (by simp [hp, hq]),
          List.filter_cons_of_neg (by simp [hq]), List.map_cons, List.map_cons, List.sum_cons, List.sum_cons, ih]
        omega
      · rw [List.filter_cons_of_pos hp, List.filter_cons_of_neg (by simp [hq]),
          List.filter_cons_of_pos (by simp [hp, hq]), List.map_cons, List.map_cons, List.sum_cons, List.sum_cons, ih]
        omega

include hk hother hused hout in
/-- `merge_cost_savings` of two fusible kernels, the second not before the first, is the drop in price
exactly when what it counts too often weighs as much as what it leaves out. -/
theorem mergeCostSavings_eq_iff {model : FuseModel} (hfuse : k.fusibleKernel model l other = true)
    (hdep : k.dependency l other ≠ 1) :
    k.mergeCostSavings model l other =
        (k.cost + other.cost : ℤ) - (other.instrIndexes.foldl (BhIrKernel.addInstr l) k).cost ↔
      k.countedTwice other + k.countedSynced l other + k.keptSynced l other = k.writtenTwice other := by
  have hsave : k.mergeCostSavings model l other = (BhIrKernel.priceDrop l other k : ℤ) := by
    rw [BhIrKernel.mergeCostSavings, hfuse, Bool.not_true, if_neg Bool.false_ne_true, if_neg hdep]
  have hinputs := sum_inputs_merged hk hother hused hout
  have houtputs := ((perm_outputs_merged hk hother hused hout).map BhIrKernel.costOfView).sum_eq
  simp only [List.map_append, List.sum_append] at houtputs
  have hmerged : (other.instrIndexes.foldl (BhIrKernel.addInstr l) k).inputSet = k.inputSet ++
      other.inputSet.filter fun v => bhViewSimplify v ∉ (({} : Tally).after (kernelInstrs l k.instrIndexes)).seen := by
    rw [(tallied_merged hk).inputs, Tally.after_append, (Tally.beside_after _ _).inputs, (tallied_of_replayed hk).inputs,
      (tallied_of_replayed hother).inputs]
  have hcost : (other.instrIndexes.foldl (BhIrKernel.addInstr l) k).cost = _ + _ := rfl
  rw [hmerged, List.map_append, List.sum_append] at hcost
  have hdrop := sum_filter_split BhIrKernel.costOfView (fun v => other.drops l v.base)
    (fun v => v.base ∈ k.syncs ∨ v.base ∈ other.syncs) k.outputSet
  rw [hsave, BhIrKernel.priceDrop_eq]
  unfold BhIrKernel.keptSynced BhIrKernel.writtenTwice BhIrKernel.countedSynced
  have hck : k.cost = _ + _ := rfl
  have hco : other.cost = _ + _ := rfl
  omega

end Merge

theorem mergeCostSavings_eq_handedOver :
    (kernelOf handedOver [0]).fusibleKernel .broadest handedOver (kernelOf handedOver [1, 2]) = true ∧
      (kernelOf handedOver [0]).mergeCostSavings .broadest handedOver (kernelOf handedOver [1, 2]) =
        ((kernelOf handedOver [0]).cost + (kernelOf handedOver [1, 2]).cost : ℤ) -
          ([1, 2].foldl (BhIrKernel.addInstr handedOver) (kernelOf handedOver [0])).cost := by
  refine ⟨by decide, ?_⟩
  apply (@mergeCostSavings_eq_iff handedOver (kernelOf handedOver [0]) (kernelOf handedOver [1, 2]) rfl rfl
    (by decide) (by decide) .broadest (by decide) (by decide)).mpr
  decide

/-- `a = a + 1`, then `b = a`: the second reads what the first both reads and writes. -/
def readAgain : List BhInstruction :=
  [⟨.add, ⟨some ⟨0, .int64, 4⟩, 0, [⟨4, 1⟩]⟩, ⟨some ⟨0, .int64, 4⟩, 0, [⟨4, 1⟩]⟩, ⟨none, 0, []⟩, .int .int64 1⟩,
    ⟨.identity, ⟨some ⟨1, .int64, 4⟩, 0, [⟨4, 1⟩]⟩, ⟨some ⟨0, .int64, 4⟩, 0, [⟨4, 1⟩]⟩, ⟨none, 0, []⟩, .int .int64 0⟩]

theorem not_mergeCostSavings_readAgain :
    NoUseAfterDiscard readAgain ∧
      (kernelOf readAgain [0]).fusibleKernel .broadest readAgain (kernelOf readAgain [1]) = true ∧
      (kernelOf readAgain [0]).dependency readAgain (kernelOf readAgain [1]) = -1 ∧
      (kernelOf readAgain [0]).mergeCostSavings .broadest readAgain (kernelOf readAgain [1]) ≠
        ((kernelOf readAgain [0]).cost + (kernelOf readAgain [1]).cost : ℤ) -
          ([1].foldl (BhIrKernel.addInstr readAgain) (kernelOf readAgain [0])).cost := by
  decide

end Bohrium
