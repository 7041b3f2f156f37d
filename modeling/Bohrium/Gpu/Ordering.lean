import Bohrium.Core.Kernel
import Bohrium.Library.Layers
import Mathlib.Algebra.BigOperators.Group.List.Basic
import Mathlib.Algebra.Order.BigOperators.Group.List

/-! # The order of the generated code

`getInstIndexes` (`ve/gpu/InstructionScheduler.cpp`) lists the instructions of a kernel in the order in
which their code is generated: an instruction of lower rank than one before it is put off behind the
rest. Nothing asks whether an instruction that is put off and one that overtakes it depend on each other,
and `generateFunctionBody` numbers the constants in this order, while `add_instr` collected them in the
order of the kernel. -/
namespace Bohrium.Gpu
open Layers
set_option autoImplicit false

/-! ## The source functions -/

section
variable (l : List BhInstruction)

/-- The number of dimensions an instruction iterates over. -/
def iterationNdim (idx : ℕ) : ℕ := (sweptOperand (instrAt l idx)).ndim

/-- The instructions that get code: the switch passes over the others. -/
def generates (idx : ℕ) : Bool := !(instrAt l idx).isSystem

/-- The loop of `getInstIndexes`: `res` and `postpone`. -/
def instPass : ℕ → List ℕ → List ℕ × List ℕ
  | _, [] => ([], [])
  | dims, idx :: rest =>
    if generates l idx = false then instPass dims rest
    else if dims ≤ iterationNdim l idx then
      (idx :: (instPass (iterationNdim l idx) rest).1, (instPass (iterationNdim l idx) rest).2)
    else ((instPass dims rest).1, idx :: (instPass dims rest).2)

theorem instPass_eq (dims : ℕ) (idxs : List ℕ) :
    instPass l dims idxs = Layers.pass (iterationNdim l) dims (idxs.filter (generates l)) := by
  induction idxs generalizing dims with
  | nil => rfl
  | cons idx rest ih =>
    rw [instPass]
    cases hgen : generates l idx with
    | false => rw [if_pos rfl, ih, List.filter_cons_of_neg (by simp [hgen])]
    | true => rw [if_neg (by simp), List.filter_cons_of_pos hgen, Layers.pass, ih, ih]

/-- The first instruction that gets code is never put off. -/
theorem length_postponed {idxs : List ℕ} (h : (instPass l 0 idxs).2 ≠ []) :
    (instPass l 0 idxs).2.length < idxs.length := by
  have hle : ∀ (xs : List ℕ) dims, (Layers.pass (iterationNdim l) dims xs).2.length ≤ xs.length := by
    intro xs
    induction xs with
    | nil => exact fun _ => le_rfl
    | cons x xs ih =>
      intro dims
      rw [Layers.pass]
      split_ifs
      · exact (ih _).trans (Nat.le_succ _)
      · exact Nat.succ_le_succ (ih _)
  rw [instPass_eq] at h ⊢
  have hfilter := List.length_filter_le (generates l) idxs
  cases hxs : idxs.filter (generates l) with
  | nil =>
    rw [hxs] at h
    exact absurd rfl h
  | cons x xs =>
    rw [hxs, List.length_cons] at hfilter
    rw [Layers.pass, if_pos (Nat.zero_le _)]
    exact (Nat.lt_succ_of_le (hle xs _)).trans_le hfilter

/-- `getInstIndexes`. -/
def getInstIndexes (idxs : List ℕ) : List ℕ :=
  if (instPass l 0 idxs).2 = [] then (instPass l 0 idxs).1
  else (instPass l 0 idxs).1 ++ getInstIndexes (instPass l 0 idxs).2
termination_by idxs.length
decreasing_by exact length_postponed l ‹_›

end

/-! ## By depth -/

variable {l : List BhInstruction}

/-- How often each instruction that gets code is put off: the length of the longest chain of earlier
instructions with strictly falling ranks that ends at it. -/
def postponements (l : List BhInstruction) (idxs : List ℕ) : List (ℕ × ℕ) :=
  marked (iterationNdim l) [] (idxs.filter (generates l))

theorem filter_generates_postponed (idxs : List ℕ) :
    ((instPass l 0 idxs).2).filter (generates l) = (instPass l 0 idxs).2 := by
  rw [List.filter_eq_self, instPass_eq, @pass_eq ℕ (iterationNdim l) [] 0 (by simp)]
  intro idx hidx
  obtain ⟨p, hp, rfl⟩ := List.mem_map.mp hidx
  have hmem : p.1 ∈ (marked (iterationNdim l) [] (idxs.filter (generates l))).map Prod.fst :=
    List.mem_map_of_mem (List.mem_of_mem_filter hp)
  rw [map_fst_marked] at hmem
  exact (List.mem_filter.mp hmem).2

theorem getInstIndexes_eq (idxs : List ℕ) : getInstIndexes l idxs = byDepth (postponements l idxs) := by
  induction hn : idxs.length using Nat.strong_induction_on generalizing idxs with
  | _ n ih =>
    rw [getInstIndexes, postponements, byDepth_marked, ← instPass_eq]
    split_ifs with hnil
    · rw [hnil]
      exact (List.append_nil _).symm
    · have hrest := ih _ (hn ▸ length_postponed l hnil) _ rfl
      rw [hrest, postponements, filter_generates_postponed]

theorem perm_getInstIndexes (idxs : List ℕ) : (getInstIndexes l idxs).Perm (idxs.filter (generates l)) := by
  rw [getInstIndexes_eq]
  have hperm := perm_byDepth (@depth_lt ℕ (iterationNdim l) (idxs.filter (generates l)))
  rwa [map_fst_marked] at hperm

/-! ## Dependent instructions -/

/-- The generated order is one of the kernel's instructions and keeps every dependency. -/
def KeepsDependencies (l : List BhInstruction) (idxs : List ℕ) : Prop :=
  (getInstIndexes l idxs).Perm (idxs.filter (generates l)) ∧
    ∀ i j, [i, j].Sublist (idxs.filter (generates l)) → dependencyAt l i j = true →
      [i, j].Sublist (getInstIndexes l idxs)

/-- Every instruction gets code once, and dependent ones keep their order exactly when none of them is put
off more often than a later one that depends on it. -/
theorem keepsDependencies_iff (l : List BhInstruction) {k : BhIrKernel} (hk : k.instrIndexes.Nodup) :
    KeepsDependencies l k.instrIndexes ↔
      (postponements l k.instrIndexes).Pairwise fun p q => dependencyAt l p.1 q.1 = true → p.2 ≤ q.2 := by
  unfold KeepsDependencies
  rw [and_iff_right (perm_getInstIndexes _), getInstIndexes_eq]
  exact keeps_order_iff (hk.filter _) fun i j => dependencyAt l i j = true

/-- Two columns summed into a vector, with a copy of the old vector before it: the copy is put off behind
the sum, which overwrites what it reads. -/
def overtaken : List BhInstruction :=
  [⟨.identity, ⟨some ⟨0, .float64, 6⟩, 0, [⟨2, 3⟩, ⟨3, 1⟩]⟩, ⟨none, 0, []⟩, ⟨none, 0, []⟩, .float .float64 (some 1)⟩,
    ⟨.identity, ⟨some ⟨1, .float64, 3⟩, 0, [⟨3, 1⟩]⟩, ⟨some ⟨2, .float64, 3⟩, 0, [⟨3, 1⟩]⟩, ⟨none, 0, []⟩,
      .int .int64 0⟩,
    ⟨.addReduce, ⟨some ⟨2, .float64, 3⟩, 0, [⟨3, 1⟩]⟩, ⟨some ⟨0, .float64, 6⟩, 0, [⟨2, 3⟩, ⟨3, 1⟩]⟩, ⟨none, 0, []⟩,
      .int .int64 0⟩]

theorem keepsDependencies_same_rank : KeepsDependencies overtaken [0, 2] :=
  (@keepsDependencies_iff overtaken { instrIndexes := [0, 2] } (by decide)).mpr (by decide)

theorem not_keepsDependencies_overtaken :
    ([0, 1, 2].foldl (BhIrKernel.addInstr overtaken) {}).fusible .noXsweepScalarSeperateShapeMatch overtaken = true ∧
      dependencyAt overtaken 1 2 = true ∧ getInstIndexes overtaken [0, 1, 2] = [0, 2, 1] ∧
      ¬ KeepsDependencies overtaken [0, 1, 2] := by
  refine ⟨by decide, by decide, by rw [getInstIndexes_eq]; decide, fun h => ?_⟩
  have hsub := h.2 1 2 (by decide) (by decide)
  rw [getInstIndexes_eq] at hsub
  exact absurd hsub (by decide)

/-! ## Constants -/

/-- The name of an operand in the generated code: a view, or `c<id>`. -/
inductive OperandName
  | view (v : BhView)
  | const (id : ℕ)
  deriving DecidableEq, Repr

/-- The loop over the inputs of an instruction: their names and `const_id` after them. The input of a sweep
ends it, so that the axis gets no name. -/
def inputNames (sweep : Bool) (constId : ℕ) : List BhView → List OperandName × ℕ
  | [] => ([], constId)
  | v :: vs =>
    if bhIsConstant v then
      (.const constId :: (inputNames sweep (constId + 1) vs).1, (inputNames sweep (constId + 1) vs).2)
    else if sweep then ([.view v], constId)
    else (.view v :: (inputNames sweep constId vs).1, (inputNames sweep constId vs).2)

section
variable (l : List BhInstruction)

/-- The input names that `generateFunctionBody` gives to each instruction. -/
def bodyNames (constId : ℕ) : List ℕ → List (ℕ × List OperandName)
  | [] => []
  | idx :: rest =>
    (idx, (inputNames (bhOpcodeIsSweep (instrAt l idx).opcode) constId (instrAt l idx).inputs).1) ::
      bodyNames (inputNames (bhOpcodeIsSweep (instrAt l idx).opcode) constId (instrAt l idx).inputs).2 rest

def generateFunctionBody (k : BhIrKernel) : List (ℕ × List OperandName) :=
  bodyNames l 0 (getInstIndexes l k.instrIndexes)

/-- The parameters that `generateKernel` declares for the constants: `c<i>` is the `i`-th. -/
def constantParameter (k : BhIrKernel) (id : ℕ) : Option BhConstant := k.constants[id]?

/-- Every constant operand is named after the parameter that holds its constant. -/
def ConstantsBound (k : BhIrKernel) : Prop :=
  ∀ p ∈ generateFunctionBody l k, ∀ id, OperandName.const id ∈ p.2 →
    constantParameter k id = some (instrAt l p.1).constant

/-- The constants `add_instr` appends for an instruction. -/
def addedConstants (idx : ℕ) : List BhConstant :=
  if generates l idx = false ∨ bhOpcodeIsSweep (instrAt l idx).opcode = true then []
  else ((instrAt l idx).inputs.filter bhIsConstant).map fun _ => (instrAt l idx).constant

/-- The constants the generated code of an instruction names. -/
def namedConstants (idx : ℕ) : List BhConstant :=
  (if bhOpcodeIsSweep (instrAt l idx).opcode then (instrAt l idx).inputs.takeWhile bhIsConstant
    else (instrAt l idx).inputs.filter bhIsConstant).map fun _ => (instrAt l idx).constant

end

theorem constants_foldl_addInput (sweep : Bool) (c : BhConstant) (vs : List BhView) (k : BhIrKernel) :
    (vs.foldl (BhIrKernel.addInput sweep c) k).constants =
      k.constants ++ if sweep then [] else (vs.filter bhIsConstant).map fun _ => c := by
  induction vs generalizing k with
  | nil => simp
  | cons v vs ih =>
    rw [List.foldl_cons, ih]
    cases hv : bhIsConstant v with
    | true => cases sweep <;> simp [BhIrKernel.addInput, hv]
    | false =>
      have hkeep : (BhIrKernel.addInput sweep c k v).constants = k.constants := by
        unfold BhIrKernel.addInput
        simp only [hv, Bool.false_eq_true, if_false]
        split_ifs <;> rfl
      rw [hkeep, List.filter_cons_of_neg (by simp [hv])]

theorem constants_addInstr (k : BhIrKernel) (idx : ℕ) :
    (k.addInstr l idx).constants = k.constants ++ addedConstants l idx := by
  show (k.record (instrAt l idx)).constants = _
  unfold addedConstants generates
  cases hs : (instrAt l idx).isSystem with
  | true =>
    rw [if_pos (Or.inl Bool.not_true), List.append_nil]
    rcases BhInstruction.opcode_of_system hs with hop | hop | hop | hop
    · rw [BhIrKernel.record, hop]
    · rw [BhIrKernel.record, hop]
    · rw [BhIrKernel.record, hop]
      dsimp only
      split_ifs <;> rfl
    · rw [BhIrKernel.record, hop]
      dsimp only
      unfold BhIrKernel.addDiscard
      dsimp only
      split_ifs <;> rfl
  | false =>
    rw [BhIrKernel.record_operation k hs]
    dsimp only
    have hfold := constants_foldl_addInput (bhOpcodeIsSweep (instrAt l idx).opcode) (instrAt l idx).constant
      (instrAt l idx).inputs k
    cases hsweep : bhOpcodeIsSweep (instrAt l idx).opcode with
    | true =>
      rw [hsweep] at hfold
      rw [if_pos rfl, if_pos (Or.inr rfl)]
      exact hfold
    | false =>
      rw [hsweep] at hfold
      rw [if_neg Bool.false_ne_true, if_neg (by simp)]
      exact hfold

theorem constants_foldl_addInstr (idxs : List ℕ) (k : BhIrKernel) :
    (idxs.foldl (BhIrKernel.addInstr l) k).constants = k.constants ++ idxs.flatMap (addedConstants l) := by
  induction idxs generalizing k with
  | nil => simp
  | cons idx idxs ih => rw [List.foldl_cons, ih, constants_addInstr, List.append_assoc, List.flatMap_cons]

/-- The constants an input loop names get the next numbers, in order. -/
theorem inputNames_spec (sweep : Bool) (constId : ℕ) (vs : List BhView) :
    (inputNames sweep constId vs).2 = constId + (if sweep then vs.takeWhile bhIsConstant else vs.filter bhIsConstant).length ∧
      ∀ id, OperandName.const id ∈ (inputNames sweep constId vs).1 ↔ constId ≤ id ∧ id < (inputNames sweep constId vs).2 := by
  induction vs generalizing constId with
  | nil =>
    refine ⟨by cases sweep <;> rfl, fun id => ?_⟩
    rw [inputNames]
    simp
  | cons v vs ih =>
    obtain ⟨hlen, hmem⟩ := ih (if bhIsConstant v then constId + 1 else constId)
    rw [inputNames]
    cases hv : bhIsConstant v with
    | true =>
      rw [hv] at hlen hmem
      simp only [if_true] at hlen hmem ⊢
      refine ⟨?_, fun id => ?_⟩
      · rw [hlen]
        cases sweep <;> simp [hv] <;> omega
      · rw [List.mem_cons, hmem, OperandName.const.injEq, hlen]
        constructor
        · rintro (rfl | h)
          · exact ⟨le_rfl, by omega⟩
          · omega
        · intro h
          omega
    | false =>
      rw [hv] at hlen hmem
      simp only [Bool.false_eq_true, if_false] at hlen hmem ⊢
      cases sweep with
      | true =>
        simp only [if_true]
        refine ⟨by simp [hv], fun id => ?_⟩
        simp
      | false =>
        simp only [Bool.false_eq_true, if_false] at hlen hmem ⊢
        refine ⟨by rw [hlen, List.filter_cons_of_neg (by simp [hv])], fun id => ?_⟩
        rw [List.mem_cons, hmem]
        simp

theorem append_prefix_iff {α : Type} {xs ys zs : List α} : xs ++ ys <+: zs ↔ xs <+: zs ∧ ys <+: zs.drop xs.length := by
  constructor
  · rintro ⟨t, rfl⟩
    rw [List.append_assoc]
    exact ⟨List.prefix_append _ _, by rw [List.drop_left]; exact List.prefix_append _ _⟩
  · rintro ⟨⟨t, rfl⟩, h⟩
    rw [List.drop_left] at h
    exact (List.prefix_append_right_inj xs).mpr h

/-- Names stand for their constants exactly when the constants they name come first among the parameters
from `constId` on. -/
theorem bound_bodyNames_iff (cs : List BhConstant) (constId : ℕ) (idxs : List ℕ) :
    (∀ p ∈ bodyNames l constId idxs, ∀ id, OperandName.const id ∈ p.2 → cs[id]? = some (instrAt l p.1).constant) ↔
      idxs.flatMap (namedConstants l) <+: cs.drop constId := by
  induction idxs generalizing constId with
  | nil => simp [bodyNames]
  | cons idx idxs ih =>
    obtain ⟨hlen, hmem⟩ := inputNames_spec (bhOpcodeIsSweep (instrAt l idx).opcode) constId (instrAt l idx).inputs
    have hnamed : (inputNames (bhOpcodeIsSweep (instrAt l idx).opcode) constId (instrAt l idx).inputs).2 =
        constId + (namedConstants l idx).length := by
      rw [hlen, namedConstants, List.length_map]
    have hhere : (∀ id, constId ≤ id ∧ id < constId + (namedConstants l idx).length →
        cs[id]? = some (instrAt l idx).constant) ↔ namedConstants l idx <+: cs.drop constId := by
      rw [List.prefix_iff_getElem?]
      constructor
      · intro h i hi
        rw [List.getElem?_drop, h (constId + i) (by omega)]
        simp [namedConstants]
      · intro h id hid
        have hid' := h (id - constId) (by omega)
        rw [List.getElem?_drop, show constId + (id - constId) = id by omega] at hid'
        rw [hid']
        simp [namedConstants]
    rw [bodyNames, List.forall_mem_cons, ih, List.flatMap_cons, append_prefix_iff, List.drop_drop, ← hhere]
    simp only [hmem, hnamed]

theorem addedConstants_eq_nil {idx : ℕ} (h : generates l idx = false) : addedConstants l idx = [] := if_pos (Or.inl h)

theorem addedConstants_of_sweep {idx : ℕ} (h : bhOpcodeIsSweep (instrAt l idx).opcode = true) :
    addedConstants l idx = [] := if_pos (Or.inr h)

theorem addedConstants_eq_named {idx : ℕ} (hgen : generates l idx = true)
    (hs : bhOpcodeIsSweep (instrAt l idx).opcode = false) : addedConstants l idx = namedConstants l idx := by
  rw [addedConstants, namedConstants, if_neg (by simp [hgen, hs]), hs]
  rfl

theorem namedConstants_eq_nil_iff {idx : ℕ} (hs : bhOpcodeIsSweep (instrAt l idx).opcode = true) :
    namedConstants l idx = [] ↔ bhIsConstant (instrAt l idx).operand1 = false := by
  have hinputs : (instrAt l idx).inputs = [(instrAt l idx).operand1, (instrAt l idx).operand2] := by
    unfold BhInstruction.inputs BhInstruction.operands
    revert hs
    cases (instrAt l idx).opcode <;> simp [bhOpcodeIsSweep, bhOpcodeIsReduction, bhOpcodeIsAccumulate, bhOperands]
  rw [namedConstants, if_pos hs, hinputs, List.map_eq_nil_iff]
  cases hc : bhIsConstant (instrAt l idx).operand1 with
  | true => simp [List.takeWhile_cons, hc]
  | false => simp [hc]

/-- The number of constants does not depend on the order. -/
theorem length_flatMap_addedConstants (idxs : List ℕ) :
    ((getInstIndexes l idxs).flatMap (addedConstants l)).length = (idxs.flatMap (addedConstants l)).length := by
  have hfilter : ∀ is : List ℕ, (is.filter (generates l)).flatMap (addedConstants l) = is.flatMap (addedConstants l) := by
    intro is
    induction is with
    | nil => rfl
    | cons i is ih =>
      cases hgen : generates l i with
      | true => rw [List.filter_cons_of_pos hgen, List.flatMap_cons, List.flatMap_cons, ih]
      | false =>
        rw [List.filter_cons_of_neg (by simp [hgen]), List.flatMap_cons, addedConstants_eq_nil hgen, List.nil_append, ih]
  rw [← hfilter idxs]
  exact ((perm_getInstIndexes idxs).flatMap_right _).length_eq

/-- Every sweep reads an array, and listing the constants by how often their instructions are put off gives
the list in which the kernel collected them. -/
def ConstantsInOrder (l : List BhInstruction) (idxs : List ℕ) : Prop :=
  (∀ idx ∈ idxs, bhOpcodeIsSweep (instrAt l idx).opcode = true → bhIsConstant (instrAt l idx).operand1 = false) ∧
    (byDepth (postponements l idxs)).flatMap (addedConstants l) = idxs.flatMap (addedConstants l)

instance (l : List BhInstruction) (idxs : List ℕ) : Decidable (ConstantsInOrder l idxs) :=
  inferInstanceAs (Decidable (_ ∧ _))

theorem generates_of_sweep {idx : ℕ} (h : bhOpcodeIsSweep (instrAt l idx).opcode = true) : generates l idx = true := by
  unfold generates BhInstruction.isSystem
  revert h
  cases (instrAt l idx).opcode <;> simp [bhOpcodeIsSweep, bhOpcodeIsReduction, bhOpcodeIsAccumulate, bhOpcodeIsSystem]

theorem constantsBound_iff {l : List BhInstruction} {k : BhIrKernel} (hk : k.Replayed l) :
    ConstantsBound l k ↔ ConstantsInOrder l k.instrIndexes := by
  have hconstants : k.constants = k.instrIndexes.flatMap (addedConstants l) := by
    conv_lhs => rw [show k = _ from hk]
    rw [constants_foldl_addInstr]
    rfl
  have hlength := @length_flatMap_addedConstants l k.instrIndexes
  have hgen : ∀ idx ∈ getInstIndexes l k.instrIndexes, generates l idx = true := fun idx hidx =>
    (List.mem_filter.mp ((perm_getInstIndexes _).mem_iff.mp hidx)).2
  have hmem : ∀ idx ∈ k.instrIndexes, generates l idx = true → idx ∈ getInstIndexes l k.instrIndexes :=
    fun idx hidx hg => (perm_getInstIndexes _).mem_iff.mpr (List.mem_filter.mpr ⟨hidx, hg⟩)
  unfold ConstantsBound constantParameter generateFunctionBody ConstantsInOrder
  rw [bound_bodyNames_iff, List.drop_zero, hconstants, ← getInstIndexes_eq]
  have hnamed : (∀ idx ∈ k.instrIndexes, bhOpcodeIsSweep (instrAt l idx).opcode = true →
      bhIsConstant (instrAt l idx).operand1 = false) →
      (getInstIndexes l k.instrIndexes).flatMap (namedConstants l) =
        (getInstIndexes l k.instrIndexes).flatMap (addedConstants l) := by
    intro hsweeps
    refine List.flatMap_congr fun idx hidx => ?_
    have hin := List.mem_of_mem_filter ((perm_getInstIndexes _).mem_iff.mp hidx)
    cases hs : bhOpcodeIsSweep (instrAt l idx).opcode with
    | true => rw [addedConstants_of_sweep hs, (namedConstants_eq_nil_iff hs).mpr (hsweeps idx hin hs)]
    | false => exact (addedConstants_eq_named (hgen idx hidx) hs).symm
  constructor
  · intro hprefix
    have hsweeps : ∀ idx ∈ k.instrIndexes, bhOpcodeIsSweep (instrAt l idx).opcode = true →
        bhIsConstant (instrAt l idx).operand1 = false := by
      intro idx hidx hs
      rw [← namedConstants_eq_nil_iff hs]
      by_contra hne
      -- a constant named for a sweep has no parameter
      have hlt : ((getInstIndexes l k.instrIndexes).flatMap (addedConstants l)).length <
          ((getInstIndexes l k.instrIndexes).flatMap (namedConstants l)).length := by
        rw [List.length_flatMap, List.length_flatMap]
        refine List.sum_lt_sum _ _ (fun i hi => ?_) ⟨idx, hmem idx hidx (generates_of_sweep hs), ?_⟩
        · cases hsi : bhOpcodeIsSweep (instrAt l i).opcode with
          | true => rw [addedConstants_of_sweep hsi]; exact Nat.zero_le _
          | false => rw [addedConstants_eq_named (hgen i hi) hsi]
        · rw [addedConstants_of_sweep hs]
          exact List.length_pos_of_ne_nil hne
      have hle := hprefix.length_le
      omega
    refine ⟨hsweeps, ?_⟩
    rw [hnamed hsweeps] at hprefix
    exact hprefix.eq_of_length hlength
  · rintro ⟨hsweeps, heq⟩
    rw [hnamed hsweeps]
    exact ⟨[], (List.append_nil _).trans heq⟩

/-- Constants of a matrix, a vector and a matrix: the second matrix is generated before the vector. -/
def swapped : List BhInstruction :=
  [⟨.identity, ⟨some ⟨0, .int64, 6⟩, 0, [⟨2, 3⟩, ⟨3, 1⟩]⟩, ⟨none, 0, []⟩, ⟨none, 0, []⟩, .int .int64 1⟩,
    ⟨.identity, ⟨some ⟨1, .int64, 3⟩, 0, [⟨3, 1⟩]⟩, ⟨none, 0, []⟩, ⟨none, 0, []⟩, .int .int64 5⟩,
    ⟨.identity, ⟨some ⟨2, .int64, 6⟩, 0, [⟨2, 3⟩, ⟨3, 1⟩]⟩, ⟨none, 0, []⟩, ⟨none, 0, []⟩, .int .int64 7⟩]

theorem constantsBound_same_rank : ConstantsBound swapped ([0, 2].foldl (BhIrKernel.addInstr swapped) {}) :=
  (constantsBound_iff ((BhIrKernel.replayed_empty swapped).foldl [0, 2])).mpr (by decide)

theorem not_constantsBound_swapped :
    ([0, 1, 2].foldl (BhIrKernel.addInstr swapped) {}).fusible .noXsweepScalarSeperateShapeMatch swapped = true ∧
      ([0, 1, 2].foldl (BhIrKernel.addInstr swapped) {}).constants = [.int .int64 1, .int .int64 5, .int .int64 7] ∧
      generateFunctionBody swapped ([0, 1, 2].foldl (BhIrKernel.addInstr swapped) {}) =
        [(0, [.const 0]), (2, [.const 1]), (1, [.const 2])] ∧
      ¬ ConstantsBound swapped ([0, 1, 2].foldl (BhIrKernel.addInstr swapped) {}) := by
  have hbody : generateFunctionBody swapped ([0, 1, 2].foldl (BhIrKernel.addInstr swapped) {}) =
      [(0, [.const 0]), (2, [.const 1]), (1, [.const 2])] := by
    rw [generateFunctionBody, getInstIndexes_eq]
    decide
  refine ⟨by decide, by decide, hbody, fun h => ?_⟩
  have hsecond := h (2, [.const 1]) (by rw [hbody]; decide) 1 (by decide)
  exact absurd hsecond (by decide)

end Bohrium.Gpu
