import Bohrium.Core.Kernel

/-! # What a kernel pays for

The part of `bh_ir_kernel` that `cost` depends on, on its own: the views seen so far, the views read
before they were seen, the views written and not discarded, and the arrays synchronised. `add_instr`
keeps exactly this tally. -/
namespace Bohrium
set_option autoImplicit false

structure Tally where
  seen : List BhView := []
  inputs : List BhView := []
  outputs : List BhView := []
  syncs : List (Option BhBase) := []

namespace Tally

def read (t : Tally) (v : BhView) : Tally :=
  if bhIsConstant v = true ∨ bhViewSimplify v ∈ t.seen then t
  else { t with seen := t.seen ++ [bhViewSimplify v], inputs := t.inputs ++ [v] }

def write (t : Tally) (v : BhView) : Tally :=
  { t with seen := setInsert (bhViewSimplify v) t.seen, outputs := setInsert v t.outputs }

def discard (t : Tally) (base : Option BhBase) : Tally :=
  if base ∈ t.syncs then t else { t with outputs := t.outputs.filter fun v => v.base ≠ base }

def note (t : Tally) (i : BhInstruction) : Tally :=
  match i.opcode with
  | .none | .free => t
  | .sync => { t with syncs := setInsert i.operand0.base t.syncs }
  | .discard => t.discard i.operand0.base
  | _ => (i.inputs.foldl read t).write i.operand0

def cost (t : Tally) : ℕ :=
  (t.inputs.map BhIrKernel.costOfView).sum + (t.outputs.map BhIrKernel.costOfView).sum

variable {t : Tally} {i : BhInstruction}

theorem note_operation (hs : i.isSystem = false) : t.note i = (i.inputs.foldl read t).write i.operand0 := by
  have hs' : bhOpcodeIsSystem i.opcode = false := hs
  unfold note
  split
  all_goals first
    | rfl
    | (rename_i hop; rw [hop] at hs'; cases hs')

theorem note_sync (hop : i.opcode = .sync) : t.note i = { t with syncs := setInsert i.operand0.base t.syncs } := by
  rw [note, hop]

theorem note_discard (hop : i.opcode = .discard) : t.note i = t.discard i.operand0.base := by
  rw [note, hop]

theorem note_idle (hop : i.opcode = .none ∨ i.opcode = .free) : t.note i = t := by
  rcases hop with hop | hop
  · rw [note, hop]
  · rw [note, hop]

/-- The kinds of instructions the tally tells apart. -/
theorem kinds (i : BhInstruction) :
    i.isSystem = false ∨ i.opcode = .sync ∨ i.opcode = .discard ∨ (i.opcode = .none ∨ i.opcode = .free) := by
  cases hs : i.isSystem with
  | false => exact Or.inl rfl
  | true =>
    rcases BhInstruction.opcode_of_system hs with hop | hop | hop | hop
    · exact Or.inr (Or.inr (Or.inr (Or.inl hop)))
    · exact Or.inr (Or.inl hop)
    · exact Or.inr (Or.inr (Or.inr (Or.inr hop)))
    · exact Or.inr (Or.inr (Or.inl hop))

end Tally

/-! ## The kernel keeps the tally -/

structure Tallied (t : Tally) (k : BhIrKernel) : Prop where
  seen : k.views.map.map Prod.fst = t.seen
  inputMap : k.inputMap = t.inputs.map fun v => (v.base, v)
  inputs : k.inputSet = t.inputs
  outputs : k.outputSet = t.outputs
  syncs : k.syncs = t.syncs
  known : ∀ v ∈ t.inputs, bhViewSimplify v ∈ t.seen
  written : ∀ v ∈ t.outputs, (v.base, v) ∈ k.outputMap
  based : ∀ p ∈ k.outputMap, p.1 = p.2.base
  mapped : ∀ p ∈ k.outputMap, p.2 ∈ t.outputs

theorem tallied_empty : Tallied {} {} :=
  ⟨rfl, rfl, rfl, rfl, rfl, nofun, nofun, nofun, nofun⟩

variable {t : Tally} {k : BhIrKernel}

theorem Seqset.insert_of_mem {α : Type} [DecidableEq α] {s : Seqset α} {v : α} (h : v ∈ s.map.map Prod.fst) :
    s.insert v = (s, (s.insert v).2.1, false) := by
  unfold Seqset.insert
  cases hf : s.find v with
  | some id => rfl
  | none =>
    obtain ⟨p, hp, rfl⟩ := List.mem_map.mp h
    have hne := List.lookup_eq_none_iff.mp hf p hp
    simp at hne

theorem Seqset.insert_of_notMem {α : Type} [DecidableEq α] {s : Seqset α} {v : α} (h : v ∉ s.map.map Prod.fst) :
    (s.insert v).1.map.map Prod.fst = s.map.map Prod.fst ++ [v] ∧ (s.insert v).2.2 = true := by
  rcases s.insert_spec v with ⟨_, _, p, hp, heq⟩ | ⟨hnew, heq⟩
  · exact absurd (List.mem_map.mpr ⟨p, hp, heq⟩) h
  · rw [heq, List.map_append]
    exact ⟨rfl, hnew⟩

theorem Tallied.read (h : Tallied t k) (sweep : Bool) (c : BhConstant) (v : BhView) :
    Tallied (t.read v) (k.addInput sweep c v) := by
  unfold Tally.read BhIrKernel.addInput
  cases hc : bhIsConstant v with
  | true =>
    rw [if_pos (Or.inl rfl), if_pos rfl]
    split_ifs
    · exact h
    · exact { h with }
  | false =>
    by_cases hseen : bhViewSimplify v ∈ t.seen
    · rw [if_pos (Or.inr hseen), if_neg Bool.false_ne_true, Seqset.insert_of_mem (by rw [h.seen]; exact hseen)]
      dsimp only
      rw [if_neg Bool.false_ne_true]
      split_ifs
      · exact { h with }
      · exact { h with }
    · obtain ⟨hkeys, hnew⟩ := Seqset.insert_of_notMem (show bhViewSimplify v ∉ k.views.map.map Prod.fst by rwa [h.seen])
      have hfresh : v ∉ k.inputSet := by
        rw [h.inputs]
        exact fun hv => hseen (h.known v hv)
      rw [if_neg (by simp [hseen]), if_neg Bool.false_ne_true]
      obtain ⟨⟨views, id, new⟩, hins⟩ : ∃ p, p = k.views.insert (bhViewSimplify v) := ⟨_, rfl⟩
      rw [← hins] at hkeys hnew ⊢
      dsimp only at hkeys hnew ⊢
      rw [hnew, if_pos rfl]
      have hstep : Tallied { t with seen := t.seen ++ [bhViewSimplify v], inputs := t.inputs ++ [v] }
          { k with
            views := views
            inputMap := k.inputMap ++ [(v.base, v)]
            inputSet := setInsert v k.inputSet
            parameters := (k.parameters.insert v.base).1 } := by
        refine ⟨by rw [hkeys, h.seen], by rw [h.inputMap, List.map_append]; rfl, ?_, h.outputs, h.syncs, ?_, h.written,
          h.based, h.mapped⟩
        · rw [setInsert, if_neg hfresh, h.inputs]
        · intro u hu
          rcases List.mem_append.mp hu with hu | hu
          · exact List.mem_append_left _ (h.known u hu)
          · rw [List.mem_singleton.mp hu]
            exact List.mem_append_right _ List.mem_cons_self
      split_ifs
      · exact { hstep with }
      · exact hstep

theorem Tallied.reads (h : Tallied t k) (sweep : Bool) (c : BhConstant) (vs : List BhView) :
    Tallied (vs.foldl Tally.read t) (vs.foldl (BhIrKernel.addInput sweep c) k) := by
  induction vs generalizing t k with
  | nil => exact h
  | cons v vs ih => exact ih (h.read sweep c v)

theorem keys_insert {α : Type} [DecidableEq α] (s : Seqset α) (v : α) :
    (s.insert v).1.map.map Prod.fst = setInsert v (s.map.map Prod.fst) := by
  unfold setInsert
  split_ifs with h
  · rw [Seqset.insert_of_mem h]
  · exact (Seqset.insert_of_notMem h).1

theorem Tallied.write (h : Tallied t k) (opcode : BhOpcode) (v : BhView) :
    Tallied (t.write v) (k.addOutput opcode v) := by
  refine ⟨?_, h.inputMap, h.inputs, ?_, h.syncs, fun u hu => mem_setInsert.mpr (Or.inr (h.known u hu)), fun u hu => ?_,
    fun p hp => ?_, fun p hp => ?_⟩
  · show (k.views.insert (bhViewSimplify v)).1.map.map Prod.fst = setInsert (bhViewSimplify v) t.seen
    rw [keys_insert, h.seen]
  · show setInsert v k.outputSet = setInsert v t.outputs
    rw [h.outputs]
  · rcases mem_setInsert.mp hu with rfl | hu
    · exact List.mem_append_right _ List.mem_cons_self
    · exact List.mem_append_left _ (h.written u hu)
  · rcases List.mem_append.mp hp with hp | hp
    · exact h.based p hp
    · rw [List.mem_singleton.mp hp]
  · rcases List.mem_append.mp hp with hp | hp
    · exact mem_setInsert.mpr (Or.inr (h.mapped p hp))
    · rw [List.mem_singleton.mp hp]
      exact mem_setInsert.mpr (Or.inl rfl)

/-- A discard takes away the outputs of its array. -/
theorem Tallied.discard (h : Tallied t k) (base : Option BhBase) :
    Tallied (t.discard base) (k.addDiscard base) := by
  unfold Tally.discard BhIrKernel.addDiscard
  by_cases hsync : base ∈ t.syncs
  · rw [if_pos hsync, if_pos (show base ∈ k.syncs by rwa [h.syncs])]
    exact { h with }
  · rw [if_neg hsync, if_neg (show base ∉ k.syncs by rwa [h.syncs])]
    have houtputs : k.outputSet.filter (· ∉ (k.outputMap.filter (·.1 = base)).map Prod.snd) =
        t.outputs.filter fun v => v.base ≠ base := by
      rw [h.outputs]
      refine List.filter_congr fun v hv => ?_
      rw [decide_eq_decide, not_iff_not, List.mem_map]
      constructor
      · rintro ⟨p, hp, rfl⟩
        obtain ⟨hp, hbase⟩ := List.mem_filter.mp hp
        rw [← h.based p hp]
        exact of_decide_eq_true hbase
      · rintro hbase
        exact ⟨_, List.mem_filter.mpr ⟨h.written v hv, decide_eq_true hbase⟩, rfl⟩
    have hstep : ∀ k' : BhIrKernel, k'.views = k.views → k'.inputMap = k.inputMap → k'.inputSet = k.inputSet →
        k'.outputSet = t.outputs.filter (fun v => v.base ≠ base) → k'.outputMap = k.outputMap.filter (·.1 ≠ base) →
        k'.syncs = k.syncs → Tallied { t with outputs := t.outputs.filter fun v => v.base ≠ base } k' := by
      intro k' hv hi his ho hom hs
      refine ⟨hv ▸ h.seen, hi ▸ h.inputMap, his ▸ h.inputs, ho, hs ▸ h.syncs, h.known, fun v hv => ?_, fun p hp => ?_,
        fun p hp => ?_⟩
      · obtain ⟨hv, hne⟩ := List.mem_filter.mp hv
        rw [hom]
        exact List.mem_filter.mpr ⟨h.written v hv, hne⟩
      · rw [hom] at hp
        exact h.based p (List.mem_of_mem_filter hp)
      · rw [hom] at hp
        obtain ⟨hp, hne⟩ := List.mem_filter.mp hp
        refine List.mem_filter.mpr ⟨h.mapped p hp, ?_⟩
        rw [← h.based p hp]
        exact hne
    dsimp only
    split_ifs
    · refine hstep _ ?_ ?_ ?_ houtputs ?_ ?_ <;> rfl
    · refine hstep _ ?_ ?_ ?_ houtputs ?_ ?_ <;> rfl

theorem Tallied.note (h : Tallied t k) (i : BhInstruction) : Tallied (t.note i) (k.record i) := by
  rcases Tally.kinds i with hs | hop | hop | hop
  · rw [Tally.note_operation hs, BhIrKernel.record_operation k hs]
    have hstep := (h.reads (bhOpcodeIsSweep i.opcode) i.constant i.inputs).write i.opcode i.operand0
    dsimp only
    split_ifs
    · exact { hstep with }
    · exact hstep
  · rw [Tally.note_sync hop, BhIrKernel.record, hop]
    refine { h with syncs := ?_ }
    show setInsert _ k.syncs = _
    rw [h.syncs]
  · rw [Tally.note_discard hop, BhIrKernel.record, hop]
    exact h.discard _
  · rw [Tally.note_idle hop]
    rcases hop with hop | hop
    · rw [BhIrKernel.record, hop]
      exact h
    · rw [BhIrKernel.record, hop]
      dsimp only
      split_ifs
      · exact h
      · exact { h with }

theorem Tallied.foldl (h : Tallied t k) (l : List BhInstruction) (idxs : List ℕ) :
    Tallied ((idxs.map (instrAt l)).foldl Tally.note t) (idxs.foldl (BhIrKernel.addInstr l) k) := by
  induction idxs generalizing t k with
  | nil => exact h
  | cons idx idxs ih => exact ih { h.note (instrAt l idx) with }

theorem Tallied.cost (h : Tallied t k) : k.cost = t.cost := by
  rw [BhIrKernel.cost, h.inputs, h.outputs, Tally.cost]

end Bohrium
