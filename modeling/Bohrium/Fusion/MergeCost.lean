import Bohrium.Fusion.Tally
import Bohrium.Engine.Contraction
import Mathlib.Algebra.BigOperators.Group.Finset.Basic
import Mathlib.Algebra.Order.BigOperators.Group.List

/-! # The cost of a merged kernel

The tally of two kernels merged, against the tallies of the two. What the second kernel reads is paid for
unless the first has seen it; what either writes is paid for once, and not at all when it is discarded.
Only an array that the first kernel synchronises and the second writes and discards costs more merged than
apart: synchronised arrays are no temporaries. -/
namespace Bohrium
open Engine
set_option autoImplicit false

/-! ## Instruction lists -/

def Synced (is : List BhInstruction) (x : Option BhBase) : Prop :=
  ∃ j ∈ is, j.opcode = .sync ∧ j.operand0.base = x

def Discarded (is : List BhInstruction) (x : Option BhBase) : Prop :=
  ∃ j ∈ is, j.opcode = .discard ∧ j.operand0.base = x

def WrittenView (is : List BhInstruction) (v : BhView) : Prop := ∃ j ∈ is, j.isSystem = false ∧ j.operand0 = v

/-- The second list discards an array that it wrote and did not synchronise, but that the first list
synchronised. -/
def DropsSynced (as bs : List BhInstruction) : Prop :=
  ∃ pre d post, bs = pre ++ d :: post ∧ d.opcode = .discard ∧ Synced as d.operand0.base ∧
    ¬ Synced pre d.operand0.base ∧ ∃ v, WrittenView pre v ∧ v.base = d.operand0.base

theorem synced_append {is js : List BhInstruction} {x : Option BhBase} :
    Synced (is ++ js) x ↔ Synced is x ∨ Synced js x := by
  simp only [Synced, List.mem_append, or_and_right, exists_or]

theorem discarded_append {is js : List BhInstruction} {x : Option BhBase} :
    Discarded (is ++ js) x ↔ Discarded is x ∨ Discarded js x := by
  simp only [Discarded, List.mem_append, or_and_right, exists_or]

theorem writtenView_append {is js : List BhInstruction} {v : BhView} :
    WrittenView (is ++ js) v ↔ WrittenView is v ∨ WrittenView js v := by
  simp only [WrittenView, List.mem_append, or_and_right, exists_or]

namespace Tally

/-- The tally of a list of instructions, from a given one. -/
def after (t : Tally) (is : List BhInstruction) : Tally := is.foldl note t

variable {t a b ab : Tally} {is : List BhInstruction} {i : BhInstruction} {v : BhView}

theorem after_concat (t : Tally) (is : List BhInstruction) (i : BhInstruction) :
    t.after (is ++ [i]) = (t.after is).note i := by
  rw [after, List.foldl_append]
  rfl

theorem after_append (t : Tally) (is js : List BhInstruction) : t.after (is ++ js) = (t.after is).after js :=
  List.foldl_append

/-! ## What reading leaves alone -/

theorem syncs_reads (vs : List BhView) (t : Tally) : (vs.foldl read t).syncs = t.syncs := by
  induction vs generalizing t with
  | nil => rfl
  | cons v vs ih =>
    rw [List.foldl_cons, ih]
    unfold read
    split_ifs <;> rfl

theorem outputs_reads (vs : List BhView) (t : Tally) : (vs.foldl read t).outputs = t.outputs := by
  induction vs generalizing t with
  | nil => rfl
  | cons v vs ih =>
    rw [List.foldl_cons, ih]
    unfold read
    split_ifs <;> rfl

theorem syncs_note : (t.note i).syncs = if i.opcode = .sync then setInsert i.operand0.base t.syncs else t.syncs := by
  rcases kinds i with hs | hop | hop | hop
  · rw [note_operation hs, if_neg (by rintro hop; rw [BhInstruction.isSystem, hop] at hs; cases hs)]
    exact syncs_reads _ _
  · rw [note_sync hop, if_pos hop]
  · rw [note_discard hop, if_neg (by rw [hop]; decide), discard]
    split_ifs <;> rfl
  · rw [note_idle hop, if_neg (by rcases hop with hop | hop <;> rw [hop] <;> decide)]

theorem mem_syncs_after {x : Option BhBase} : x ∈ (t.after is).syncs ↔ x ∈ t.syncs ∨ Synced is x := by
  induction is using List.reverseRecOn with
  | nil => simp [after, Synced]
  | append_singleton is i ih =>
    rw [after_concat, syncs_note, synced_append, ← or_assoc, ← ih]
    split_ifs with hop
    · rw [mem_setInsert, or_comm]
      apply or_congr_right
      simp only [Synced, List.mem_singleton, exists_eq_left, hop, true_and]
      exact eq_comm
    · simp [Synced, hop]

/-! ## The merged tally -/

/-- The tally `ab` of two lists of instructions, beside the tally `a` of the first and the tally `b` of the
second alone. -/
structure Beside (a b ab : Tally) : Prop where
  seen : ∀ s, s ∈ ab.seen ↔ s ∈ a.seen ∨ s ∈ b.seen
  inputs : ab.inputs = a.inputs ++ b.inputs.filter fun v => bhViewSimplify v ∉ a.seen

theorem Beside.read (h : Beside a b ab) (v : BhView) : Beside a (b.read v) (ab.read v) := by
  unfold Tally.read
  by_cases hc : bhIsConstant v = true
  · rw [if_pos (Or.inl hc), if_pos (Or.inl hc)]
    exact h
  by_cases hb : bhViewSimplify v ∈ b.seen
  · rw [if_pos (Or.inr hb), if_pos (Or.inr ((h.seen _).mpr (Or.inr hb)))]
    exact h
  rw [if_neg (by simp [hc, hb])]
  by_cases ha : bhViewSimplify v ∈ a.seen
  · rw [if_pos (Or.inr ((h.seen _).mpr (Or.inl ha)))]
    refine ⟨fun s => ?_, ?_⟩
    · rw [h.seen, List.mem_append, List.mem_singleton, ← or_assoc]
      constructor
      · exact Or.inl
      · rintro (hs | rfl)
        · exact hs
        · exact Or.inl ha
    · rw [h.inputs, List.filter_append, List.filter_cons_of_neg (by simpa using ha), List.filter_nil, List.append_nil]
  · rw [if_neg (by simp [hc, h.seen, ha, hb])]
    refine ⟨fun s => ?_, ?_⟩
    · rw [List.mem_append, List.mem_append, h.seen, or_assoc]
    · rw [h.inputs, List.filter_append, List.filter_cons_of_pos (by simpa using ha), List.filter_nil, List.append_assoc]

theorem Beside.write (h : Beside a b ab) (v : BhView) : Beside a (b.write v) (ab.write v) := by
  refine ⟨fun s => ?_, h.inputs⟩
  show s ∈ setInsert _ ab.seen ↔ s ∈ a.seen ∨ s ∈ setInsert _ b.seen
  rw [mem_setInsert, mem_setInsert, h.seen, or_left_comm]

theorem Beside.reads (h : Beside a b ab) (vs : List BhView) : Beside a (vs.foldl Tally.read b) (vs.foldl Tally.read ab) := by
  induction vs generalizing b ab with
  | nil => exact h
  | cons v vs ih => exact ih (h.read v)

theorem Beside.discard (h : Beside a b ab) (base : Option BhBase) : Beside a (b.discard base) (ab.discard base) := by
  have hseen : ∀ t : Tally, (t.discard base).seen = t.seen := fun t => by unfold Tally.discard; split_ifs <;> rfl
  have hinputs : ∀ t : Tally, (t.discard base).inputs = t.inputs := fun t => by unfold Tally.discard; split_ifs <;> rfl
  refine ⟨fun s => ?_, ?_⟩
  · rw [hseen, hseen, h.seen]
  · rw [hinputs, hinputs, h.inputs]

theorem Beside.note (h : Beside a b ab) (i : BhInstruction) : Beside a (b.note i) (ab.note i) := by
  rcases kinds i with hs | hop | hop | hop
  · rw [note_operation hs, note_operation hs]
    exact (h.reads _).write _
  · rw [note_sync hop, note_sync hop]
    exact ⟨h.seen, h.inputs⟩
  · rw [note_discard hop, note_discard hop]
    exact h.discard _
  · rw [note_idle hop, note_idle hop]
    exact h

theorem beside_after (a : Tally) (is : List BhInstruction) : Beside a (({} : Tally).after is) (a.after is) := by
  induction is using List.reverseRecOn with
  | nil => exact ⟨fun s => by simp [after], by simp [after]⟩
  | append_singleton is i ih =>
    rw [after_concat, after_concat]
    exact ih.note i

/-! ## Outputs -/

theorem mem_outputs_operation (hs : i.isSystem = false) : v ∈ (t.note i).outputs ↔ v = i.operand0 ∨ v ∈ t.outputs := by
  rw [note_operation hs]
  show v ∈ setInsert _ (i.inputs.foldl Tally.read t).outputs ↔ _
  rw [mem_setInsert, outputs_reads]

theorem mem_outputs_discard (hop : i.opcode = .discard) :
    v ∈ (t.note i).outputs ↔ v ∈ t.outputs ∧ (i.operand0.base ∈ t.syncs ∨ v.base ≠ i.operand0.base) := by
  rw [note_discard hop, Tally.discard]
  split_ifs with hsync
  · simp [hsync]
  · simp [hsync]

theorem nodup_outputs_after (h : t.outputs.Nodup) (is : List BhInstruction) : (t.after is).outputs.Nodup := by
  induction is using List.reverseRecOn with
  | nil => exact h
  | append_singleton is i ih =>
    rw [after_concat]
    rcases kinds i with hs | hop | hop | hop
    · rw [note_operation hs]
      show (setInsert _ (i.inputs.foldl Tally.read (t.after is)).outputs).Nodup
      rw [outputs_reads, setInsert]
      split_ifs with hmem
      · exact ih
      · exact List.Nodup.append ih (List.nodup_singleton _) (by simpa using hmem)
    · rw [note_sync hop]
      exact ih
    · rw [note_discard hop, Tally.discard]
      split_ifs
      · exact ih
      · exact ih.filter _
    · rw [note_idle hop]
      exact ih

theorem writtenView_of_mem_outputs (hv : v ∈ (({} : Tally).after is).outputs) : WrittenView is v := by
  induction is using List.reverseRecOn with
  | nil => cases hv
  | append_singleton is i ih =>
    rw [after_concat] at hv
    rw [writtenView_append]
    rcases kinds i with hs | hop | hop | hop
    · rcases (mem_outputs_operation hs).mp hv with rfl | hv
      · exact Or.inr ⟨i, List.mem_cons_self, hs, rfl⟩
      · exact Or.inl (ih hv)
    · rw [note_sync hop] at hv
      exact Or.inl (ih hv)
    · exact Or.inl (ih ((mem_outputs_discard hop).mp hv).1)
    · rw [note_idle hop] at hv
      exact Or.inl (ih hv)

/-- What the merged kernel writes, one of the two writes. -/
theorem outputs_merged {as bs : List BhInstruction} (hkeep : ¬ DropsSynced as bs)
    (hv : v ∈ (({} : Tally).after (as ++ bs)).outputs) :
    v ∈ (({} : Tally).after as).outputs ∨ v ∈ (({} : Tally).after bs).outputs := by
  rw [after_append] at hv
  induction bs using List.reverseRecOn with
  | nil => exact Or.inl hv
  | append_singleton bs i ih =>
    have hkeep' : ¬ DropsSynced as bs := by
      rintro ⟨pre, d, post, rfl, hd⟩
      exact hkeep ⟨pre, d, post ++ [i], by simp, hd⟩
    rw [after_concat] at hv ⊢
    rcases kinds i with hs | hop | hop | hop
    · rcases (mem_outputs_operation hs).mp hv with rfl | hv
      · exact Or.inr ((mem_outputs_operation hs).mpr (Or.inl rfl))
      · exact (ih hkeep' hv).imp_right fun h => (mem_outputs_operation hs).mpr (Or.inr h)
    · rw [note_sync hop] at hv ⊢
      exact ih hkeep' hv
    · obtain ⟨hv, hor⟩ := (mem_outputs_discard hop).mp hv
      rcases ih hkeep' hv with hva | hvb
      · exact Or.inl hva
      · refine Or.inr ((mem_outputs_discard hop).mpr ⟨hvb, ?_⟩)
        by_contra hno
        rw [not_or, not_not] at hno
        rw [mem_syncs_after, mem_syncs_after] at hor
        rw [mem_syncs_after] at hno
        simp only [not_or] at hno
        refine hkeep ⟨bs, i, [], rfl, hop, ?_, hno.1.2, v, writtenView_of_mem_outputs hvb, hno.2⟩
        rcases hor with ((hor | hor) | hor) | hor
        · cases hor
        · exact hor
        · exact absurd hor hno.1.2
        · exact absurd hno.2 hor
    · rw [note_idle hop] at hv ⊢
      exact ih hkeep' hv

end Tally

/-! ## Merging never costs more -/

theorem sum_le_of_subset {f : BhView → ℕ} {xs ys : List BhView} (hxs : xs.Nodup) (hsub : ∀ x ∈ xs, x ∈ ys) :
    (xs.map f).sum ≤ (ys.map f).sum := by
  obtain ⟨zs, hperm, hsublist⟩ := List.subperm_of_subset hxs hsub
  rw [← (hperm.map f).sum_eq]
  exact (hsublist.map f).sum_le_sum fun _ _ => Nat.zero_le _

theorem tallied_of_replayed {l : List BhInstruction} {k : BhIrKernel} (hk : k.Replayed l) :
    Tallied (({} : Tally).after (kernelInstrs l k.instrIndexes)) k := by
  have h := tallied_empty.foldl l k.instrIndexes
  rwa [← show k = _ from hk] at h

theorem tallied_merged {l : List BhInstruction} {k other : BhIrKernel} (hk : k.Replayed l) :
    Tallied (({} : Tally).after (kernelInstrs l k.instrIndexes ++ kernelInstrs l other.instrIndexes))
      (other.instrIndexes.foldl (BhIrKernel.addInstr l) k) := by
  have h := (tallied_of_replayed hk).foldl l other.instrIndexes
  rwa [Tally.after_append]

/-- The kernel that runs `k` and then `other` costs no more than the two, unless `other` writes and
discards an array that `k` synchronises and `other` does not. -/
theorem cost_merged_le {l : List BhInstruction} {k other : BhIrKernel} (hk : k.Replayed l) (hother : other.Replayed l)
    (hkeep : ¬ DropsSynced (kernelInstrs l k.instrIndexes) (kernelInstrs l other.instrIndexes)) :
    (other.instrIndexes.foldl (BhIrKernel.addInstr l) k).cost ≤ k.cost + other.cost := by
  rw [(tallied_merged hk).cost, (tallied_of_replayed hk).cost, (tallied_of_replayed hother).cost]
  obtain ⟨as, has⟩ : ∃ as, as = kernelInstrs l k.instrIndexes := ⟨_, rfl⟩
  obtain ⟨bs, hbs⟩ : ∃ bs, bs = kernelInstrs l other.instrIndexes := ⟨_, rfl⟩
  rw [← has, ← hbs] at hkeep ⊢
  have hbeside := Tally.beside_after (({} : Tally).after as) bs
  rw [← Tally.after_append] at hbeside
  have hinputs : ((({} : Tally).after (as ++ bs)).inputs.map BhIrKernel.costOfView).sum ≤
      ((({} : Tally).after as).inputs.map BhIrKernel.costOfView).sum +
        ((({} : Tally).after bs).inputs.map BhIrKernel.costOfView).sum := by
    rw [hbeside.inputs, List.map_append, List.sum_append]
    apply Nat.add_le_add_left
    exact ((List.filter_sublist).map _).sum_le_sum fun _ _ => Nat.zero_le _
  have houtputs : ((({} : Tally).after (as ++ bs)).outputs.map BhIrKernel.costOfView).sum ≤
      ((({} : Tally).after as).outputs.map BhIrKernel.costOfView).sum +
        ((({} : Tally).after bs).outputs.map BhIrKernel.costOfView).sum := by
    rw [← List.sum_append, ← List.map_append]
    apply sum_le_of_subset (Tally.nodup_outputs_after List.nodup_nil _)
    intro v hv
    exact List.mem_append.mpr (Tally.outputs_merged hkeep hv)
  unfold Tally.cost
  omega

/-- `a = 1; b = a; discard a`, cut after the first instruction. -/
def handedOver : List BhInstruction :=
  [⟨.identity, ⟨some ⟨0, .int64, 4⟩, 0, [⟨4, 1⟩]⟩, ⟨none, 0, []⟩, ⟨none, 0, []⟩, .int .int64 1⟩,
    ⟨.identity, ⟨some ⟨1, .int64, 4⟩, 0, [⟨4, 1⟩]⟩, ⟨some ⟨0, .int64, 4⟩, 0, [⟨4, 1⟩]⟩, ⟨none, 0, []⟩, .int .int64 0⟩,
    ⟨.discard, ⟨some ⟨0, .int64, 4⟩, 0, [⟨4, 1⟩]⟩, ⟨none, 0, []⟩, ⟨none, 0, []⟩, .int .int64 0⟩]

theorem cost_merged_le_handedOver :
    (kernelOf handedOver [0]).cost = 32 ∧ (kernelOf handedOver [1, 2]).cost = 64 ∧
      ([1, 2].foldl (BhIrKernel.addInstr handedOver) (kernelOf handedOver [0])).cost ≤
        (kernelOf handedOver [0]).cost + (kernelOf handedOver [1, 2]).cost := by
  refine ⟨by decide, by decide, ?_⟩
  apply @cost_merged_le handedOver (kernelOf handedOver [0]) (kernelOf handedOver [1, 2]) rfl rfl
  rintro ⟨pre, d, post, _, _, ⟨j, hj, hsync, _⟩, _⟩
  rw [List.mem_singleton.mp hj] at hsync
  cases hsync

/-- `a[0:2] = 1; sync a`, then `a[2:4] = 1; discard a`: alone, the second kernel has nothing to pay for. -/
def syncedAndDropped : List BhInstruction :=
  [⟨.identity, ⟨some ⟨0, .int64, 4⟩, 0, [⟨2, 1⟩]⟩, ⟨none, 0, []⟩, ⟨none, 0, []⟩, .int .int64 1⟩,
    ⟨.sync, ⟨some ⟨0, .int64, 4⟩, 0, [⟨4, 1⟩]⟩, ⟨none, 0, []⟩, ⟨none, 0, []⟩, .int .int64 0⟩,
    ⟨.identity, ⟨some ⟨0, .int64, 4⟩, 2, [⟨2, 1⟩]⟩, ⟨none, 0, []⟩, ⟨none, 0, []⟩, .int .int64 1⟩,
    ⟨.discard, ⟨some ⟨0, .int64, 4⟩, 0, [⟨4, 1⟩]⟩, ⟨none, 0, []⟩, ⟨none, 0, []⟩, .int .int64 0⟩]

theorem not_cost_merged_le_dropped :
    NoUseAfterDiscard syncedAndDropped ∧
      ¬ ([2, 3].foldl (BhIrKernel.addInstr syncedAndDropped) (kernelOf syncedAndDropped [0, 1])).cost ≤
        (kernelOf syncedAndDropped [0, 1]).cost + (kernelOf syncedAndDropped [2, 3]).cost := by
  decide

end Bohrium
