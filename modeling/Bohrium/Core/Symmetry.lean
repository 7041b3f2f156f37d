import Bohrium.Core.Fuse
import Mathlib.Data.List.Zip

/-! # The order of the arguments

The fusers ask `bh_view_disjoint` and `check_fusible` about a pair in either order. The `gcd` of two
opposite strides has the sign of its second argument, and with the sign of the divisor the ranges that
`bh_view_disjoint` compares turn round. Of the fuse models, the last one compares shapes only if the
first output has more than one element; the same-shape models take the shape of the first output even
where that output is a constant. -/
namespace Bohrium
open CInt Strided
set_option autoImplicit false

/-! ## The greatest common divisor -/

theorem gcdLoop_fuel {f f' : ℕ} {a b : ℤ} (hb : b ≠ 0) (hf : b.natAbs ≤ f) (hf' : b.natAbs ≤ f') :
    gcdLoop f a b = gcdLoop f' a b := by
  induction f generalizing f' a b with
  | zero => omega
  | succ f ih =>
    cases f' with
    | zero => omega
    | succ f' =>
      rw [gcdLoop, gcdLoop]
      split_ifs with hc
      · rfl
      · have hlt : (a.tmod b).natAbs < b.natAbs := by
          rw [Int.natAbs_tmod]
          exact Nat.mod_lt _ (Int.natAbs_pos.mpr hb)
        exact ih hc (by omega) (by omega)

theorem tmod_of_natAbs_lt {a b : ℤ} (h : a.natAbs < b.natAbs) : a.tmod b = a := by
  have hdiv : a.tdiv b = 0 := by
    rw [← Int.natAbs_eq_zero, Int.natAbs_tdiv]
    exact Nat.div_eq_of_lt h
  have hsum := Int.mul_tdiv_add_tmod a b
  rwa [hdiv, Int.mul_zero, Int.zero_add] at hsum

theorem gcd_zero_left (b : ℤ) : gcd 0 b = b := by
  unfold gcd
  split_ifs with hb
  · exact hb.symm
  · obtain ⟨n, hn⟩ := Nat.exists_eq_succ_of_ne_zero (Int.natAbs_ne_zero.mpr hb)
    rw [hn, gcdLoop, Int.zero_tmod, if_pos rfl]

/-- The first round only exchanges the arguments. -/
theorem gcd_of_natAbs_lt {a b : ℤ} (h : a.natAbs < b.natAbs) : gcd a b = gcd b a := by
  by_cases ha : a = 0
  · rw [ha, gcd_zero_left, gcd, if_pos rfl]
  · have hb : b ≠ 0 := by omega
    obtain ⟨n, hn⟩ := Nat.exists_eq_succ_of_ne_zero (Int.natAbs_ne_zero.mpr hb)
    rw [gcd, if_neg hb, gcd, if_neg ha, hn, gcdLoop, tmod_of_natAbs_lt h, if_neg ha]
    exact gcdLoop_fuel ha (by omega) le_rfl

/-- The `int` strides of a dimension are opposite, and not zero. -/
def Opposed (x : Dim × Dim) : Prop := toInt32 x.1.stride = -toInt32 x.2.stride ∧ toInt32 x.1.stride ≠ 0

instance (x : Dim × Dim) : Decidable (Opposed x) := inferInstanceAs (Decidable (_ ∧ _))

theorem dimGcd_swap_of_not_opposed {x : Dim × Dim} (h : ¬ Opposed x) : dimGcd x.swap = dimGcd x := by
  unfold dimGcd
  rw [Prod.fst_swap, Prod.snd_swap]
  rcases lt_trichotomy (toInt32 x.1.stride).natAbs (toInt32 x.2.stride).natAbs with hlt | heq | hlt
  · exact (gcd_of_natAbs_lt hlt).symm
  · rcases Int.natAbs_eq_natAbs_iff.mp heq with heq | heq
    · rw [heq]
    · have hz : toInt32 x.1.stride = 0 := by
        by_contra hne
        exact h ⟨heq, hne⟩
      rw [show toInt32 x.2.stride = toInt32 x.1.stride by omega]
  · exact gcd_of_natAbs_lt hlt

/-! ## The overlap test -/

/-- The overlap test does not get to the ranges, or no dimension has opposite strides. -/
def ViewsOrderFree (a b : BhView) : Prop :=
  bhIsConstant a = true ∨ bhIsConstant b = true ∨ a.base ≠ b.base ∨ a.ndim ≠ b.ndim ∨
    ∀ x ∈ a.dims.zip b.dims, ¬ Opposed x

theorem disjointLoop_swap {p q stride : ℤ} {xs : List (Dim × Dim)} (h : ∀ x ∈ xs, ¬ Opposed x) :
    disjointLoop q p stride (xs.map Prod.swap) = disjointLoop p q stride xs := by
  induction xs generalizing p q stride with
  | nil => rfl
  | cons x xs ih =>
    obtain ⟨hx, hxs⟩ := List.forall_mem_cons.mp h
    rw [List.map_cons, disjointLoop, disjointLoop]
    simp only [dimGcd_swap_of_not_opposed hx, Prod.fst_swap, Prod.snd_swap, ih hxs]
    simp only [or_comm]

theorem bhViewDisjoint_comm {a b : BhView} (h : ViewsOrderFree a b) : bhViewDisjoint a b = bhViewDisjoint b a := by
  unfold bhViewDisjoint
  rw [Bool.or_comm (bhIsConstant b)]
  by_cases hconst : (bhIsConstant a || bhIsConstant b) = true
  · rw [if_pos hconst, if_pos hconst]
  rw [if_neg hconst, if_neg hconst]
  by_cases hbase : a.base = b.base
  · rw [if_neg (not_not.mpr hbase), if_neg (not_not.mpr hbase.symm)]
    by_cases hndim : a.ndim = b.ndim
    · rw [if_neg (not_not.mpr hndim), if_neg (not_not.mpr hndim.symm)]
      have hopp : ∀ x ∈ a.dims.zip b.dims, ¬ Opposed x := by
        rw [Bool.or_eq_true, not_or] at hconst
        exact (((h.resolve_left hconst.1).resolve_left hconst.2).resolve_left (not_not.mpr hbase)).resolve_left
          (not_not.mpr hndim)
      rw [← List.zip_swap a.dims b.dims, disjointLoop_swap hopp]
      cases disjointLoop (toInt32 a.start) (toInt32 b.start) 1 (a.dims.zip b.dims) with
      | none => rfl
      | some g => simp only [bne_comm (a := a.start.tmod g)]
    · rw [if_pos hndim, if_pos (Ne.symm hndim)]
  · rw [if_pos hbase, if_pos (Ne.symm hbase)]

/-! ## The fuse models -/

/-- Both outputs are arrays. -/
def ArrayOutputs (a b : BhInstruction) : Prop := bhIsConstant a.operand0 = false ∧ bhIsConstant b.operand0 = false

/-- The output is an array, and the other operands that are arrays have its shape. -/
def OneShape (i : BhInstruction) : Prop := bhIsConstant i.operand0 = false ∧ allOfShape i.operand0.shape i.operands = true

/-- The opcodes or the dependencies settle the pair, the outputs have one shape, or both are arrays. -/
def SameShapeOrderFree (accept : BhOpcode → Bool) (a b : BhInstruction) : Prop :=
  a.isSystem = true ∨ b.isSystem = true ∨ accept a.opcode = false ∨ accept b.opcode = false ∨ fuseBroadest a b = false ∨
    a.operand0.shape = b.operand0.shape ∨ ArrayOutputs a b

/-- The opcodes or the dependencies settle the pair under the last model. -/
def Settled (a b : BhInstruction) : Prop :=
  a.isSystem = true ∨ b.isSystem = true ∨ generateOrReduce a.opcode = false ∨ generateOrReduce b.opcode = false ∨
    bhOpcodeIsReduction a.opcode = true ∨ bhOpcodeIsReduction b.opcode = true ∨ fuseBroadest a b = false

/-- The outputs are arrays of more than one element; if they have the same shape, both instructions are of one shape or
neither is. -/
def AlikeOutputs (a b : BhInstruction) : Prop :=
  ArrayOutputs a b ∧ isScalar a.operand0 = false ∧ isScalar b.operand0 = false ∧
    (a.operand0.shape ≠ b.operand0.shape ∨ OneShape a ∧ OneShape b ∨ ¬ OneShape a ∧ ¬ OneShape b)

/-- The pair is settled, both outputs have one element, or neither has and they are alike. -/
def ReduceOrderFree (a b : BhInstruction) : Prop :=
  Settled a b ∨ isScalar a.operand0 = true ∧ isScalar b.operand0 = true ∨ AlikeOutputs a b

def ModelOrderFree : FuseModel → BhInstruction → BhInstruction → Prop
  | .sameShape => SameShapeOrderFree bhOpcodeIsElementwise
  | .sameShapeRange => SameShapeOrderFree fun o => o == .range || bhOpcodeIsElementwise o
  | .sameShapeRandom => SameShapeOrderFree fun o => o == .random || bhOpcodeIsElementwise o
  | .sameShapeRangeRandom => SameShapeOrderFree fun o => o == .range || o == .random || bhOpcodeIsElementwise o
  | .sameShapeGenerate1dreduce => ReduceOrderFree
  | _ => fun _ _ => True

theorem allOfShape_operands {i : BhInstruction} (hi : i.isSystem = false) (shape : List ℕ) :
    allOfShape shape i.operands =
      ((bhIsConstant i.operand0 || i.operand0.shape == shape) && allOfShape shape i.inputs) := by
  rw [BhInstruction.operands_eq_cons (bhOperands_ne_zero_of_not_system hi), allOfShape, List.all_cons]
  rfl

/-- Operands of one shape: that of the output, and the instruction is of one shape. -/
theorem allOfShape_iff {i : BhInstruction} (hi : i.isSystem = false) (harray : bhIsConstant i.operand0 = false)
    (shape : List ℕ) : allOfShape shape i.operands = true ↔ i.operand0.shape = shape ∧ OneShape i := by
  constructor
  · intro hall
    have hshape := hall
    rw [allOfShape_operands hi, harray, Bool.false_or, Bool.and_eq_true, beq_iff_eq] at hshape
    obtain ⟨rfl, -⟩ := hshape
    exact ⟨rfl, harray, hall⟩
  · rintro ⟨rfl, hone⟩
    exact hone.2

theorem fuseSameShapeOver_eq_of_shape {accept : BhOpcode → Bool} {a b : BhInstruction}
    (hshape : a.operand0.shape = b.operand0.shape) : fuseSameShapeOver accept a b = fuseSameShapeOver accept b a := by
  unfold fuseSameShapeOver
  rw [Bool.or_comm b.isSystem, Bool.or_comm (!accept b.opcode), fuseBroadest_comm b a, hshape]
  by_cases hsys : (a.isSystem || b.isSystem) = true
  · rw [if_pos hsys, if_pos hsys]
  rw [if_neg hsys, if_neg hsys]
  obtain ⟨ha, hb⟩ := Bool.or_eq_false_iff.mp (Bool.not_eq_true _ ▸ hsys)
  rw [allOfShape_operands ha, allOfShape_operands hb, hshape, beq_self_eq_true, Bool.or_true, Bool.or_true,
    Bool.true_and, Bool.true_and, Bool.and_comm (allOfShape b.operand0.shape a.inputs)]

theorem SameShapeOrderFree.comm {accept : BhOpcode → Bool} {a b : BhInstruction} (h : SameShapeOrderFree accept a b) :
    fuseSameShapeOver accept a b = fuseSameShapeOver accept b a := by
  rcases h with h | h | h | h | h | h | ⟨ha, hb⟩
  · simp [fuseSameShapeOver, h]
  · simp [fuseSameShapeOver, h]
  · simp [fuseSameShapeOver, h, Bool.or_comm b.isSystem]
  · simp [fuseSameShapeOver, h, Bool.or_comm b.isSystem]
  · simp [fuseSameShapeOver, fuseBroadest_comm b a, h, Bool.or_comm b.isSystem, Bool.or_comm (!accept b.opcode)]
  · exact fuseSameShapeOver_eq_of_shape h
  · exact fuseSameShapeOver_comm accept ha hb

theorem fuseSameShapeGenerate1dreduce_comm_of_settled {a b : BhInstruction} (h : Settled a b) :
    fuseSameShapeGenerate1dreduce a b = fuseSameShapeGenerate1dreduce b a := by
  unfold fuseSameShapeGenerate1dreduce
  rw [Bool.or_comm b.isSystem, Bool.or_comm (!generateOrReduce b.opcode), fuseBroadest_comm b a]
  rcases h with h | h | h | h | h | h | h
  · simp [h]
  · simp [h]
  · simp [h]
  · simp [h]
  · cases hb : bhOpcodeIsReduction b.opcode <;> simp [h]
  · cases ha : bhOpcodeIsReduction a.opcode <;> simp [h]
  · cases ha : bhOpcodeIsReduction a.opcode <;> cases hb : bhOpcodeIsReduction b.opcode <;> simp [h]

theorem Settled.symm {a b : BhInstruction} (h : Settled a b) : Settled b a := by
  unfold Settled at h ⊢
  rw [fuseBroadest_comm b a]
  tauto

theorem fuseSameShapeGenerate1dreduce_eq {a b : BhInstruction} (h : ¬ Settled a b) :
    fuseSameShapeGenerate1dreduce a b = (isScalar a.operand0 || allOfShape a.operand0.shape b.operands) := by
  simp only [Settled, not_or, Bool.not_eq_true, Bool.not_eq_false] at h
  obtain ⟨ha, hb, hgena, hgenb, hreda, hredb, hbroad⟩ := h
  unfold fuseSameShapeGenerate1dreduce
  simp [ha, hb, hgena, hgenb, hreda, hredb, hbroad]

/-- Of a pair that is not settled the last model wants a first output of one element, or the second instruction to
have its shape. -/
theorem fuseSameShapeGenerate1dreduce_iff {a b : BhInstruction} (h : ¬ Settled a b) (hb : bhIsConstant b.operand0 = false) :
    fuseSameShapeGenerate1dreduce a b = true ↔
      isScalar a.operand0 = true ∨ b.operand0.shape = a.operand0.shape ∧ OneShape b := by
  have hsys : b.isSystem = false := by
    simp only [Settled, not_or, Bool.not_eq_true] at h
    exact h.2.1
  rw [fuseSameShapeGenerate1dreduce_eq h, Bool.or_eq_true, allOfShape_iff hsys hb]

theorem isScalar_congr {v w : BhView} (h : v.shape = w.shape) : isScalar v = isScalar w := by
  unfold isScalar
  rw [h]

/-- Where a pair with arrays as outputs is not settled, the last model gives one answer in both orders exactly on these
shapes. -/
theorem fuseSameShapeGenerate1dreduce_comm_iff {a b : BhInstruction} (hset : ¬ Settled a b) (harrays : ArrayOutputs a b) :
    fuseSameShapeGenerate1dreduce a b = fuseSameShapeGenerate1dreduce b a ↔
      isScalar a.operand0 = true ∧ isScalar b.operand0 = true ∨ AlikeOutputs a b := by
  have hset' : ¬ Settled b a := fun h => hset h.symm
  rw [Bool.eq_iff_iff, fuseSameShapeGenerate1dreduce_iff hset harrays.2, fuseSameShapeGenerate1dreduce_iff hset' harrays.1]
  constructor
  · intro hcomm
    have hscalar : isScalar a.operand0 = isScalar b.operand0 := by
      rw [Bool.eq_iff_iff]
      constructor
      · intro hone
        exact (hcomm.mp (Or.inl hone)).elim id fun hshape => isScalar_congr hshape.1 ▸ hone
      · intro hone
        exact (hcomm.mpr (Or.inl hone)).elim id fun hshape => isScalar_congr hshape.1 ▸ hone
    cases ha : isScalar a.operand0 with
    | true => exact Or.inl ⟨rfl, hscalar ▸ ha⟩
    | false =>
      rw [← hscalar, ha, or_iff_right Bool.false_ne_true, or_iff_right Bool.false_ne_true] at hcomm
      refine Or.inr ⟨harrays, ha, hscalar ▸ ha, or_iff_not_imp_left.mpr fun hshape => ?_⟩
      rw [not_ne_iff] at hshape
      rw [hshape, eq_self, true_and, true_and] at hcomm
      by_cases hone : OneShape a
      · exact Or.inl ⟨hone, hcomm.mpr hone⟩
      · exact Or.inr ⟨hone, fun h => hone (hcomm.mp h)⟩
  · rintro (⟨ha, hb⟩ | ⟨-, ha, hb, hshape⟩)
    · exact iff_of_true (Or.inl ha) (Or.inl hb)
    · rw [ha, hb, or_iff_right Bool.false_ne_true, or_iff_right Bool.false_ne_true]
      rcases hshape with hne | ⟨hone, hone'⟩ | ⟨hmany, hmany'⟩
      · exact iff_of_false (fun h => hne h.1.symm) fun h => hne h.1
      · rw [and_iff_left hone, and_iff_left hone', eq_comm]
      · exact iff_of_false (fun h => hmany' h.2) fun h => hmany h.2

theorem ReduceOrderFree.comm {a b : BhInstruction} (h : ReduceOrderFree a b) :
    fuseSameShapeGenerate1dreduce a b = fuseSameShapeGenerate1dreduce b a := by
  by_cases hset : Settled a b
  · exact fuseSameShapeGenerate1dreduce_comm_of_settled hset
  · obtain ⟨ha, hb⟩ | halike := h.resolve_left hset
    · have hset' : ¬ Settled b a := fun h => hset h.symm
      rw [fuseSameShapeGenerate1dreduce_eq hset, fuseSameShapeGenerate1dreduce_eq hset', ha, hb, Bool.true_or, Bool.true_or]
    · exact (fuseSameShapeGenerate1dreduce_comm_iff hset halike.1).mpr (Or.inr halike)

theorem ModelOrderFree.comm {model : FuseModel} {a b : BhInstruction} (h : ModelOrderFree model a b) :
    checkFusible model a b = checkFusible model b a := by
  cases model with
  | broadest => exact fuseBroadest_comm a b
  | noXsweep => exact fuseNoXsweep_comm a b
  | noXsweepScalarSeperate => exact fuseNoXsweepScalarSeperate_comm a b
  | noXsweepScalarSeperateShapeMatch =>
    simp only [checkFusible, fuseNoXsweepScalarSeperateShapeMatch]
    rw [Bool.or_comm, innermostMatch_comm, fuseNoXsweepScalarSeperate_comm]
  | sameShape | sameShapeRange | sameShapeRandom | sameShapeRangeRandom =>
    unfold ModelOrderFree at h
    exact h.comm
  | sameShapeGenerate1dreduce => exact ReduceOrderFree.comm h

/-- With arrays as outputs the condition on the instructions is exact. -/
theorem modelOrderFree_of_comm {model : FuseModel} {a b : BhInstruction} (harrays : ArrayOutputs a b)
    (hcomm : checkFusible model a b = checkFusible model b a) : ModelOrderFree model a b := by
  cases model with
  | broadest | noXsweep | noXsweepScalarSeperate | noXsweepScalarSeperateShapeMatch => exact trivial
  | sameShape | sameShapeRange | sameShapeRandom | sameShapeRangeRandom =>
    right; right; right; right; right; right
    exact harrays
  | sameShapeGenerate1dreduce =>
    exact or_iff_not_imp_left.mpr fun hset => (fuseSameShapeGenerate1dreduce_comm_iff hset harrays).mp hcomm

/-- On these pairs the overlap test and the fuse models give one answer in both orders; of instructions with arrays as
outputs, on no others. -/
theorem comm_of_orderFree (u v : BhView) (model : FuseModel) (a b : BhInstruction) :
    (ViewsOrderFree u v → bhViewDisjoint u v = bhViewDisjoint v u) ∧
      (ModelOrderFree model a b → checkFusible model a b = checkFusible model b a) ∧
      (ArrayOutputs a b → checkFusible model a b = checkFusible model b a → ModelOrderFree model a b) :=
  ⟨bhViewDisjoint_comm, ModelOrderFree.comm, modelOrderFree_of_comm⟩

/-- The first two of four elements, and all four in steps of one; two copies of a constant into arrays of two. -/
theorem comm_of_orderFree_copies :
    bhViewDisjoint ⟨some ⟨0, .int64, 4⟩, 0, [⟨2, 1⟩]⟩ ⟨some ⟨0, .int64, 4⟩, 0, [⟨4, 1⟩]⟩ =
        bhViewDisjoint ⟨some ⟨0, .int64, 4⟩, 0, [⟨4, 1⟩]⟩ ⟨some ⟨0, .int64, 4⟩, 0, [⟨2, 1⟩]⟩ ∧
      checkFusible .sameShapeGenerate1dreduce
        ⟨.identity, ⟨some ⟨0, .int64, 2⟩, 0, [⟨2, 1⟩]⟩, ⟨none, 0, []⟩, ⟨none, 0, []⟩, .int .int64 0⟩
        ⟨.identity, ⟨some ⟨1, .int64, 2⟩, 0, [⟨2, 1⟩]⟩, ⟨none, 0, []⟩, ⟨none, 0, []⟩, .int .int64 0⟩ =
      checkFusible .sameShapeGenerate1dreduce
        ⟨.identity, ⟨some ⟨1, .int64, 2⟩, 0, [⟨2, 1⟩]⟩, ⟨none, 0, []⟩, ⟨none, 0, []⟩, .int .int64 0⟩
        ⟨.identity, ⟨some ⟨0, .int64, 2⟩, 0, [⟨2, 1⟩]⟩, ⟨none, 0, []⟩, ⟨none, 0, []⟩, .int .int64 0⟩ := by
  have h := comm_of_orderFree ⟨some ⟨0, .int64, 4⟩, 0, [⟨2, 1⟩]⟩ ⟨some ⟨0, .int64, 4⟩, 0, [⟨4, 1⟩]⟩
    .sameShapeGenerate1dreduce
    ⟨.identity, ⟨some ⟨0, .int64, 2⟩, 0, [⟨2, 1⟩]⟩, ⟨none, 0, []⟩, ⟨none, 0, []⟩, .int .int64 0⟩
    ⟨.identity, ⟨some ⟨1, .int64, 2⟩, 0, [⟨2, 1⟩]⟩, ⟨none, 0, []⟩, ⟨none, 0, []⟩, .int .int64 0⟩
  refine ⟨h.1 ?_, h.2.1 (Or.inr (Or.inr ⟨⟨rfl, rfl⟩, rfl, rfl, Or.inr (Or.inl ⟨⟨rfl, rfl⟩, rfl, rfl⟩)⟩))⟩
  right; right; right; right
  decide

/-- Four elements read backwards and the first two of them; and a one-element output beside a longer
one. -/
theorem not_comm_opposed :
    bhViewDisjoint ⟨some ⟨0, .int64, 4⟩, 0, [⟨2, 1⟩]⟩ ⟨some ⟨0, .int64, 4⟩, 3, [⟨4, -1⟩]⟩ = false ∧
      bhViewDisjoint ⟨some ⟨0, .int64, 4⟩, 3, [⟨4, -1⟩]⟩ ⟨some ⟨0, .int64, 4⟩, 0, [⟨2, 1⟩]⟩ = true ∧
      checkFusible .sameShapeGenerate1dreduce
        ⟨.identity, ⟨some ⟨0, .int64, 1⟩, 0, [⟨1, 1⟩]⟩, ⟨none, 0, []⟩, ⟨none, 0, []⟩, .int .int64 0⟩
        ⟨.identity, ⟨some ⟨1, .int64, 2⟩, 0, [⟨2, 1⟩]⟩, ⟨none, 0, []⟩, ⟨none, 0, []⟩, .int .int64 0⟩ = true ∧
      checkFusible .sameShapeGenerate1dreduce
        ⟨.identity, ⟨some ⟨1, .int64, 2⟩, 0, [⟨2, 1⟩]⟩, ⟨none, 0, []⟩, ⟨none, 0, []⟩, .int .int64 0⟩
        ⟨.identity, ⟨some ⟨0, .int64, 1⟩, 0, [⟨1, 1⟩]⟩, ⟨none, 0, []⟩, ⟨none, 0, []⟩, .int .int64 0⟩ = false := by
  decide

end Bohrium
