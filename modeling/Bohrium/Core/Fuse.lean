import Bohrium.Core.Instruction

/-! # Fuse models

The nine models of `core/bh_fuse.cpp`: whether two instructions may share a kernel. `check_fusible`
passes to the selected model; the model is an argument here. -/
namespace Bohrium
open Strided
set_option autoImplicit false

/-- The models of `bh_fuse.h`, in its order. -/
inductive FuseModel
  | broadest | noXsweep | noXsweepScalarSeperate | noXsweepScalarSeperateShapeMatch
  | sameShape | sameShapeRange | sameShapeRandom | sameShapeRangeRandom | sameShapeGenerate1dreduce
  deriving DecidableEq, Repr

/-! ## The models -/

/-- The views never overlap, or only element by element. -/
def disjointOrAligned (out v : BhView) : Bool := bhViewDisjoint out v || bhViewAligned out v

def fuseBroadest (a b : BhInstruction) : Bool :=
  if a.isSystem || b.isSystem then true
  else a.operands.all (disjointOrAligned b.operand0) && b.operands.all (disjointOrAligned a.operand0)

/-- No two sweeps of one dimensionality along different axes. -/
def fuseNoXsweep (a b : BhInstruction) : Bool :=
  fuseBroadest a b &&
    !(bhOpcodeIsSweep a.opcode && bhOpcodeIsSweep b.opcode &&
      a.operand1.ndim == b.operand1.ndim && a.constant.int64 != b.constant.int64)

/-- The `__scalar` of the source. -/
def scalarKernel (i : BhInstruction) : Bool :=
  bhIsScalar i.operand0 || (bhOpcodeIsAccumulate i.opcode && i.operand0.ndim == 1)

-- no test for system opcodes here, unlike in every other model
def fuseNoXsweepScalarSeperate (a b : BhInstruction) : Bool :=
  fuseNoXsweep a b &&
    ((scalarKernel a && scalarKernel b) || (!scalarKernel a && !scalarKernel b))

/-- The operand whose shape a kernel iterates over. -/
def sweptOperand (i : BhInstruction) : BhView :=
  if bhOpcodeIsSweep i.opcode then i.operand1 else i.operand0

def innermostMatch (va vb : BhView) : Bool :=
  (va.shape.reverse.zip vb.shape.reverse).all fun p => p.1 == p.2

def fuseNoXsweepScalarSeperateShapeMatch (a b : BhInstruction) : Bool :=
  if a.isSystem || b.isSystem then true
  else innermostMatch (sweptOperand a) (sweptOperand b) && fuseNoXsweepScalarSeperate a b

/-- Every operand that is no constant has the given shape. -/
def allOfShape (shape : List ℕ) (vs : List BhView) : Bool :=
  vs.all fun v => bhIsConstant v || v.shape == shape

/-- The common body of the four same-shape models; `accept` are the opcodes they allow. -/
def fuseSameShapeOver (accept : BhOpcode → Bool) (a b : BhInstruction) : Bool :=
  if a.isSystem || b.isSystem then true
  else if !accept a.opcode || !accept b.opcode then false
  else allOfShape a.operand0.shape a.inputs && allOfShape a.operand0.shape b.operands &&
    fuseBroadest a b

def fuseSameShape : BhInstruction → BhInstruction → Bool := fuseSameShapeOver bhOpcodeIsElementwise

def fuseSameShapeRange : BhInstruction → BhInstruction → Bool :=
  fuseSameShapeOver fun o => o == .range || bhOpcodeIsElementwise o

def fuseSameShapeRandom : BhInstruction → BhInstruction → Bool :=
  fuseSameShapeOver fun o => o == .random || bhOpcodeIsElementwise o

def fuseSameShapeRangeRandom : BhInstruction → BhInstruction → Bool :=
  fuseSameShapeOver fun o => o == .range || o == .random || bhOpcodeIsElementwise o

def isScalar (v : BhView) : Bool := v.shape == [1]

/-- The opcodes of the last model. -/
def generateOrReduce (o : BhOpcode) : Bool :=
  o == .range || o == .random || bhOpcodeIsElementwise o || bhOpcodeIsReduction o

/-- One of the two is a reduction: the other neither touches its result nor has another shape. -/
def fuseWithReduction (red other : BhInstruction) : Bool :=
  (other.operands.all fun v => bhIsConstant v || v.base != red.operand0.base) &&
    allOfShape red.operand1.shape other.operands

def fuseSameShapeGenerate1dreduce (a b : BhInstruction) : Bool :=
  if a.isSystem || b.isSystem then true
  else if !generateOrReduce a.opcode || !generateOrReduce b.opcode then false
  else
    match bhOpcodeIsReduction a.opcode, bhOpcodeIsReduction b.opcode with
    | true, true => false
    | false, true => fuseWithReduction b a && fuseBroadest a b
    | true, false => fuseWithReduction a b && fuseBroadest a b
    -- the shapes are compared only if the first output is more than one element
    | false, false => (isScalar a.operand0 || allOfShape a.operand0.shape b.operands) && fuseBroadest a b

def checkFusible : FuseModel → BhInstruction → BhInstruction → Bool
  | .broadest => fuseBroadest
  | .noXsweep => fuseNoXsweep
  | .noXsweepScalarSeperate => fuseNoXsweepScalarSeperate
  | .noXsweepScalarSeperateShapeMatch => fuseNoXsweepScalarSeperateShapeMatch
  | .sameShape => fuseSameShape
  | .sameShapeRange => fuseSameShapeRange
  | .sameShapeRandom => fuseSameShapeRandom
  | .sameShapeRangeRandom => fuseSameShapeRangeRandom
  | .sameShapeGenerate1dreduce => fuseSameShapeGenerate1dreduce

/-! ## What an accepted pair satisfies -/

theorem allOfShape_eq_true {shape : List ℕ} {vs : List BhView} (h : allOfShape shape vs = true)
    {v : BhView} (hv : v ∈ vs) (hc : bhIsConstant v = false) : v.shape = shape := by
  have := List.all_eq_true.mp h v hv
  simpa [hc] using this

theorem fuseBroadest_spec {a b : BhInstruction} (ha : a.isSystem = false) (hb : b.isSystem = false)
    (h : fuseBroadest a b = true) :
    (∀ v ∈ a.operands, disjointOrAligned b.operand0 v = true) ∧
      ∀ v ∈ b.operands, disjointOrAligned a.operand0 v = true := by
  simpa [fuseBroadest, ha, hb, List.all_eq_true] using h

theorem fuseBroadest_comm (a b : BhInstruction) : fuseBroadest a b = fuseBroadest b a := by
  unfold fuseBroadest
  rw [Bool.or_comm, Bool.and_comm]

theorem fuseSameShapeOver_spec {accept : BhOpcode → Bool} {a b : BhInstruction}
    (ha : a.isSystem = false) (hb : b.isSystem = false) (h : fuseSameShapeOver accept a b = true) :
    accept a.opcode = true ∧ accept b.opcode = true ∧
      allOfShape a.operand0.shape a.inputs = true ∧ allOfShape a.operand0.shape b.operands = true ∧
      fuseBroadest a b = true := by
  unfold fuseSameShapeOver at h
  rw [if_neg (by simp [ha, hb])] at h
  split_ifs at h with hacc
  · simp only [Bool.or_eq_true, Bool.not_eq_true', not_or, Bool.not_eq_false] at hacc
    simp only [Bool.and_eq_true] at h
    exact ⟨hacc.1, hacc.2, h.1.1, h.1.2, h.2⟩

/-! ## The order of the arguments -/

theorem fuseNoXsweep_comm (a b : BhInstruction) : fuseNoXsweep a b = fuseNoXsweep b a := by
  unfold fuseNoXsweep
  rw [fuseBroadest_comm, Bool.and_comm (bhOpcodeIsSweep a.opcode), BEq.comm (a := a.operand1.ndim),
    bne_comm (a := a.constant.int64)]

theorem fuseNoXsweepScalarSeperate_comm (a b : BhInstruction) :
    fuseNoXsweepScalarSeperate a b = fuseNoXsweepScalarSeperate b a := by
  unfold fuseNoXsweepScalarSeperate
  rw [fuseNoXsweep_comm, Bool.and_comm (scalarKernel a), Bool.and_comm (!scalarKernel a)]

theorem innermostMatch_comm (va vb : BhView) : innermostMatch va vb = innermostMatch vb va := by
  unfold innermostMatch
  generalize va.shape.reverse = xs
  generalize vb.shape.reverse = ys
  induction xs generalizing ys with
  | nil => cases ys <;> rfl
  | cons x xs ih =>
    cases ys with
    | nil => rfl
    | cons y ys =>
      rw [List.zip_cons_cons, List.zip_cons_cons, List.all_cons, List.all_cons, ih]
      exact congrArg (· && _) BEq.comm

theorem fuseSameShapeOver_symm {accept : BhOpcode → Bool} {a b : BhInstruction}
    (hb : bhIsConstant b.operand0 = false)
    (h : fuseSameShapeOver accept a b = true) : fuseSameShapeOver accept b a = true := by
  cases hsys : a.isSystem || b.isSystem with
  | true =>
    unfold fuseSameShapeOver
    rw [Bool.or_comm, hsys, if_pos rfl]
  | false =>
    obtain ⟨hsa, hsb⟩ := Bool.or_eq_false_iff.mp hsys
    obtain ⟨hacca, haccb, hain, hbops, hbroad⟩ := fuseSameShapeOver_spec hsa hsb h
    have hopa := BhInstruction.operands_eq_cons (bhOperands_ne_zero_of_not_system hsa)
    have hopb := BhInstruction.operands_eq_cons (bhOperands_ne_zero_of_not_system hsb)
    have hshape : b.operand0.shape = a.operand0.shape :=
      allOfShape_eq_true hbops (by rw [hopb]; exact List.mem_cons_self) hb
    have hbin : allOfShape a.operand0.shape b.inputs = true := by
      rw [hopb, allOfShape, List.all_cons, Bool.and_eq_true] at hbops
      exact hbops.2
    have haops : allOfShape a.operand0.shape a.operands = true := by
      rw [hopa, allOfShape, List.all_cons, Bool.and_eq_true]
      exact ⟨by simp, hain⟩
    unfold fuseSameShapeOver
    rw [if_neg (by simp [hsa, hsb]), if_neg (by simp [hacca, haccb]), hshape, hbin, haops,
      fuseBroadest_comm, hbroad]
    rfl

theorem fuseSameShapeOver_comm (accept : BhOpcode → Bool) {a b : BhInstruction}
    (ha : bhIsConstant a.operand0 = false) (hb : bhIsConstant b.operand0 = false) :
    fuseSameShapeOver accept a b = fuseSameShapeOver accept b a :=
  Bool.eq_iff_iff.mpr ⟨fuseSameShapeOver_symm hb, fuseSameShapeOver_symm ha⟩

end Bohrium
