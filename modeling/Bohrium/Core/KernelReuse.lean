import Bohrium.Core.Kernel
import Bohrium.Library.Rounds

/-! # Kernels that are cleared and used again

A run of `add_instr` and `clear` on one `bh_ir_kernel`. `clear` leaves `sweeps` and `constants`, so that a
cleared kernel is as good as a new one exactly if it had none. -/
namespace Bohrium.BhIrKernel
open Rounds
set_option autoImplicit false

inductive Call
  | addInstr (idx : ℕ)
  | clear
  deriving DecidableEq, Repr

def call (l : List BhInstruction) (k : BhIrKernel) : Call → Option BhIrKernel
  | .addInstr idx => some (k.addInstr l idx)
  | .clear => some k.clear

/-- Neither a sweep nor an operation on a constant. -/
def Plain (i : BhInstruction) : Prop :=
  i.isSystem = true ∨ (bhOpcodeIsSweep i.opcode = false ∧ ∀ v ∈ i.inputs, bhIsConstant v = false)

instance (i : BhInstruction) : Decidable (Plain i) := inferInstanceAs (Decidable (_ ∨ _))

/-- Only plain instructions are cleared away. -/
def ClearsPlain (l : List BhInstruction) (k : BhIrKernel) : Call → Prop
  | .addInstr _ => True
  | .clear => ∀ idx ∈ k.instrIndexes, Plain (instrAt l idx)

/-- There is something that `clear` leaves. -/
def Leftover (k : BhIrKernel) : Prop := k.sweeps ≠ [] ∨ k.constants ≠ []

variable {l : List BhInstruction} {k : BhIrKernel}

theorem addInput_sweeps (sweep : Bool) (c : BhConstant) (k : BhIrKernel) (v : BhView) :
    (k.addInput sweep c v).sweeps = k.sweeps := by
  unfold addInput
  dsimp only
  split_ifs <;> rfl

theorem addInput_constants (sweep : Bool) (c : BhConstant) (k : BhIrKernel) (v : BhView) :
    (k.addInput sweep c v).constants = if bhIsConstant v = true ∧ sweep = false then k.constants ++ [c] else k.constants := by
  cases hv : bhIsConstant v with
  | true => cases sweep <;> simp [addInput, hv]
  | false =>
    simp only [addInput, hv, Bool.false_eq_true, if_false, false_and]
    split_ifs <;> rfl

theorem leftover_addInputs (sweep : Bool) (c : BhConstant) (vs : List BhView) (k : BhIrKernel) :
    Leftover (vs.foldl (addInput sweep c) k) ↔ Leftover k ∨ (sweep = false ∧ ∃ v ∈ vs, bhIsConstant v = true) := by
  induction vs generalizing k with
  | nil => simp
  | cons v vs ih =>
    have hv : Leftover (k.addInput sweep c v) ↔ Leftover k ∨ (bhIsConstant v = true ∧ sweep = false) := by
      rw [Leftover, addInput_sweeps, addInput_constants, Leftover]
      split_ifs with h
      · simp [h]
      · simp [h]
    rw [List.foldl_cons, ih, hv, List.exists_mem_cons_iff]
    tauto

theorem leftover_operation (i : BhInstruction) (hs : i.isSystem = false) :
    Leftover (k.record i) ↔ Leftover k ∨ ¬ Plain i := by
  have hinputs := leftover_addInputs (bhOpcodeIsSweep i.opcode) i.constant i.inputs k
  rw [record_operation k hs, Plain, hs]
  cases hsweep : bhOpcodeIsSweep i.opcode with
  | true =>
    -- the sweep itself is left
    refine iff_of_true (Or.inl ?_) (Or.inr (by simp))
    rw [if_pos rfl]
    exact List.append_ne_nil_of_right_ne_nil _ (List.cons_ne_nil _ _)
  | false =>
    rw [hsweep] at hinputs
    rw [if_neg Bool.false_ne_true]
    refine Iff.trans hinputs ?_
    simp

theorem leftover_system (i : BhInstruction) (hs : i.isSystem = true) : Leftover (k.record i) ↔ Leftover k := by
  rcases BhInstruction.opcode_of_system hs with h | h | h | h
  · rw [record, h]
  · rw [record, h]
    rfl
  · rw [record, h]
    dsimp only
    split_ifs <;> rfl
  · rw [record, h]
    dsimp only
    unfold addDiscard
    dsimp only
    split_ifs <;> rfl

theorem leftover_record (i : BhInstruction) : Leftover (k.record i) ↔ Leftover k ∨ ¬ Plain i := by
  cases hs : i.isSystem with
  | true => simp [leftover_system i hs, Plain, hs]
  | false => exact leftover_operation i hs

theorem leftover_foldl (l : List BhInstruction) (is : List ℕ) (k : BhIrKernel) :
    Leftover (is.foldl (addInstr l) k) ↔ Leftover k ∨ ∃ idx ∈ is, ¬ Plain (instrAt l idx) := by
  induction is generalizing k with
  | nil => simp
  | cons idx is ih =>
    have hone : Leftover (k.addInstr l idx) ↔ Leftover k ∨ ¬ Plain (instrAt l idx) := leftover_record _
    rw [List.foldl_cons, ih, hone, List.exists_mem_cons_iff, or_assoc]

theorem Replayed.leftover_iff (h : k.Replayed l) : ¬ Leftover k ↔ ∀ idx ∈ k.instrIndexes, Plain (instrAt l idx) := by
  have hk := leftover_foldl l k.instrIndexes {}
  rw [← show k = _ from h] at hk
  rw [hk]
  simp [Leftover]

theorem clear_eq_empty_iff : k.clear = {} ↔ ¬ Leftover k := by
  simp only [clear, mk.injEq, Leftover, not_or, not_not, true_and, and_true]

/-- Every kernel of a run is the replay of its instructions exactly if only plain instructions are
cleared away. -/
theorem reused_iff (l : List BhInstruction) (calls : List Call) :
    Throughout (call l) (Replayed l) (fun _ _ => True) {} calls ↔
      Throughout (call l) (fun _ => True) (ClearsPlain l) {} calls := by
  refine throughout_iff (I := Replayed l) (fun k hk => iff_of_true hk trivial) ?_ ?_ (replayed_empty l)
  · intro k c hk hc
    refine ⟨trivial, fun k' hk' => ?_⟩
    cases c with
    | addInstr idx =>
      obtain rfl := Option.some.inj hk'
      exact hk.foldl [idx]
    | clear =>
      obtain rfl := Option.some.inj hk'
      rw [clear_eq_empty_iff.mpr (hk.leftover_iff.mpr hc)]
      exact replayed_empty l
  · intro k c hk _ hgood
    cases c with
    | addInstr idx => trivial
    | clear => exact hk.leftover_iff.mp (clear_eq_empty_iff.mp (hgood k.clear rfl))

/-- `x = y + 1` -/
def addConstant : List BhInstruction :=
  [⟨.add, ⟨some ⟨1, .int64, 4⟩, 0, [⟨4, 1⟩]⟩, ⟨some ⟨0, .int64, 4⟩, 0, [⟨4, 1⟩]⟩, ⟨none, 0, []⟩, .int .int64 1⟩]

theorem not_reused_addConstant : ¬ ∀ (l : List BhInstruction) (calls : List Call),
    Throughout (call l) (Replayed l) (fun _ _ => True) {} calls := by
  intro h
  have hcleared := ((h addConstant [.addInstr 0, .clear]).2.2 _ rfl).2.2 _ rfl
  revert hcleared
  unfold Throughout Replayed
  decide

end Bohrium.BhIrKernel
