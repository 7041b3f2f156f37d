import Bohrium.Core.Disjoint
import Mathlib.Data.Rat.Defs

/-! # Instructions

`bh_instruction` with the constant it may carry, and `bh_instr_dependency` (`core/bh.cpp`). The
operand array has three slots; an operation reads the first `bh_operands` of them. -/
namespace Bohrium
set_option autoImplicit false

/-- `bh_constant`: a value and its type. A float that is no number has the value `none`. -/
inductive BhConstant
  | int (type : BhType) (value : ℤ)
  | float (type : BhType) (value : Option ℚ)
  | complex (type : BhType) (real imag : Option ℚ)
  | r123 (start key : ℕ)
  deriving DecidableEq, Repr

/-- `constant.value.int64`. Sweeps carry their axis there; the bits of other constants are never
read as an integer and are not modelled. -/
def BhConstant.int64 : BhConstant → ℤ
  | .int _ v => v
  | _ => 0

/-- `bh_instruction`. -/
structure BhInstruction where
  opcode : BhOpcode
  operand0 : BhView
  operand1 : BhView
  operand2 : BhView
  constant : BhConstant
  deriving DecidableEq, Repr

namespace BhInstruction

/-- The operands an operation has. -/
def operands (i : BhInstruction) : List BhView :=
  [i.operand0, i.operand1, i.operand2].take (bhOperands i.opcode)

/-- The operands after the first one. -/
def inputs (i : BhInstruction) : List BhView := i.operands.tail

def isSystem (i : BhInstruction) : Bool := bhOpcodeIsSystem i.opcode

/-- `opcode = BH_NONE`: the instruction stays in its list and does nothing. -/
def toNone (i : BhInstruction) : BhInstruction := { i with opcode := .none }

theorem operands_of_nop_zero {i : BhInstruction} (h : bhOperands i.opcode = 0) : i.operands = [] := by
  simp [operands, h]

theorem operands_eq_cons {i : BhInstruction} (h : bhOperands i.opcode ≠ 0) :
    i.operands = i.operand0 :: i.inputs := by
  obtain ⟨n, hn⟩ := Nat.exists_eq_succ_of_ne_zero h
  simp [inputs, operands, hn]

theorem operand0_mem {i : BhInstruction} (h : bhOperands i.opcode ≠ 0) : i.operand0 ∈ i.operands := by
  rw [operands_eq_cons h]
  exact List.mem_cons_self

theorem mem_operands_of_mem_inputs {i : BhInstruction} {v : BhView} (h : v ∈ i.inputs) :
    v ∈ i.operands := List.mem_of_mem_tail h

theorem opcode_of_system {i : BhInstruction} (hs : i.isSystem = true) :
    i.opcode = .none ∨ i.opcode = .sync ∨ i.opcode = .free ∨ i.opcode = .discard := by
  have hs' : bhOpcodeIsSystem i.opcode = true := hs
  revert hs'
  cases i.opcode <;> simp [bhOpcodeIsSystem]

end BhInstruction

theorem bhOperands_eq_zero_iff (opcode : BhOpcode) : bhOperands opcode = 0 ↔ opcode = .none := by
  cases opcode <;> simp [bhOperands]

theorem bhOperands_ne_zero_of_not_system {opcode : BhOpcode} (h : bhOpcodeIsSystem opcode = false) :
    bhOperands opcode ≠ 0 := by
  rw [Ne, bhOperands_eq_zero_iff]
  rintro rfl
  simp [bhOpcodeIsSystem] at h

/-- `bh_instr_dependency`. -/
def bhInstrDependency (a b : BhInstruction) : Bool :=
  if bhOperands a.opcode == 0 || bhOperands b.opcode == 0 then false
  else a.operands.any (fun v => !bhViewDisjoint b.operand0 v) ||
    b.operands.any (fun v => !bhViewDisjoint a.operand0 v)

theorem bhInstrDependency_comm (a b : BhInstruction) : bhInstrDependency a b = bhInstrDependency b a := by
  unfold bhInstrDependency
  rw [Bool.or_comm (bhOperands a.opcode == 0), Bool.or_comm (a.operands.any _)]

/-- Independent instructions: each output is called disjoint from every operand of the other. -/
theorem bhInstrDependency_eq_false {a b : BhInstruction} (ha : bhOperands a.opcode ≠ 0)
    (hb : bhOperands b.opcode ≠ 0) (h : bhInstrDependency a b = false) :
    (∀ v ∈ a.operands, bhViewDisjoint b.operand0 v = true) ∧
      ∀ v ∈ b.operands, bhViewDisjoint a.operand0 v = true := by
  simp only [bhInstrDependency, beq_iff_eq, ha, hb, or_self, if_false, Bool.or_eq_true,
    Bool.or_eq_false_iff, List.any_eq_false, Bool.not_eq_true, Bool.not_eq_false'] at h
  exact h

/-- A dependency is a shared base: some array is an operand of both. -/
theorem bhInstrDependency_shared_base {a b : BhInstruction} (h : bhInstrDependency a b = true) :
    ∃ base : BhBase, (∃ u ∈ a.operands, u.base = some base) ∧ ∃ v ∈ b.operands, v.base = some base := by
  have key : ∀ u v : BhView, bhViewDisjoint u v = false → ∃ base, u.base = some base ∧ v.base = some base := by
    intro u v huv
    cases hu : u.base with
    | none => rw [bhViewDisjoint_of_constant_left v (by simp [bhIsConstant, hu])] at huv; cases huv
    | some base =>
      by_cases hv : u.base = v.base
      · exact ⟨base, rfl, by rw [← hv, hu]⟩
      · rw [bhViewDisjoint_of_base_ne hv] at huv; cases huv
  unfold bhInstrDependency at h
  split_ifs at h with hnop
  simp only [Bool.or_eq_true, beq_iff_eq, not_or] at hnop
  simp only [Bool.or_eq_true, List.any_eq_true, Bool.not_eq_true'] at h
  rcases h with ⟨v, hv, hdis⟩ | ⟨v, hv, hdis⟩
  · obtain ⟨base, h0, h1⟩ := key _ _ hdis
    exact ⟨base, ⟨v, hv, h1⟩, b.operand0, BhInstruction.operand0_mem hnop.2, h0⟩
  · obtain ⟨base, h0, h1⟩ := key _ _ hdis
    exact ⟨base, ⟨a.operand0, BhInstruction.operand0_mem hnop.1, h0⟩, v, hv, h1⟩

/-- `bh_instr_dependency` between the instructions at two indices of a list. -/
def dependencyAt (l : List BhInstruction) (i j : ℕ) : Bool :=
  match l[i]?, l[j]? with
  | some a, some b => bhInstrDependency a b
  | _, _ => false

theorem dependencyAt_of_getElem? {l : List BhInstruction} {i j : ℕ} {a b : BhInstruction}
    (ha : l[i]? = some a) (hb : l[j]? = some b) : dependencyAt l i j = bhInstrDependency a b := by
  simp [dependencyAt, ha, hb]

theorem dependencyAt_lt_length {l : List BhInstruction} {i j : ℕ} (h : dependencyAt l i j = true) :
    i < l.length ∧ j < l.length := by
  unfold dependencyAt at h
  split at h
  · rename_i a b ha hb
    exact ⟨(List.getElem?_eq_some_iff.mp ha).1, (List.getElem?_eq_some_iff.mp hb).1⟩
  · cases h

theorem dependencyAt_comm (l : List BhInstruction) (i j : ℕ) : dependencyAt l i j = dependencyAt l j i := by
  unfold dependencyAt
  cases l[i]? <;> cases l[j]? <;> first | rfl | exact bhInstrDependency_comm _ _

end Bohrium
