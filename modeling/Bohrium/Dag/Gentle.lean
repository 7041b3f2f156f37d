import Bohrium.Dag.Replay
import Bohrium.Fusion.Savings

/-! # What gentle fusion gives up

`fuse_gently` merges a vertex into its only neighbour if the neighbour's in- and outputs contain those of the
vertex. The sets no longer hold what was discarded or read through an aligned view, and say nothing of
opcodes, sweeps and shapes: a third kernel that is fusible with the neighbour stays so exactly if none of
this comes between it and the vertex. -/
namespace Bohrium
open Engine
set_option autoImplicit false

/-! ## The models beside the overlap test -/

/-- Sweeps of one rank along different axes. -/
def xsweep (a b : BhInstruction) : Bool :=
  bhOpcodeIsSweep a.opcode && bhOpcodeIsSweep b.opcode && a.operand1.ndim == b.operand1.ndim &&
    a.constant.int64 != b.constant.int64

def sameShapeRest (accept : BhOpcode → Bool) (a b : BhInstruction) : Bool :=
  a.isSystem || b.isSystem || (accept a.opcode && accept b.opcode && allOfShape a.operand0.shape a.inputs &&
    allOfShape a.operand0.shape b.operands)

def reduceRest (a b : BhInstruction) : Bool :=
  a.isSystem || b.isSystem || (generateOrReduce a.opcode && generateOrReduce b.opcode &&
    match bhOpcodeIsReduction a.opcode, bhOpcodeIsReduction b.opcode with
    | true, true => false
    | false, true => fuseWithReduction b a
    | true, false => fuseWithReduction a b
    | false, false => isScalar a.operand0 || allOfShape a.operand0.shape b.operands)

def shapeMatchMissed (a b : BhInstruction) : Bool :=
  a.isSystem || b.isSystem || (innermostMatch (sweptOperand a) (sweptOperand b) && !xsweep a b)

def shapeMatchRest (a b : BhInstruction) : Bool :=
  shapeMatchMissed a b && (a.isSystem || b.isSystem || scalarKernel a == scalarKernel b)

/-- What a model asks of two instructions besides `fuse_broadest`. -/
def modelRest : FuseModel → BhInstruction → BhInstruction → Bool
  | .broadest, _, _ => true
  | .noXsweep, a, b => !xsweep a b
  | .noXsweepScalarSeperate, a, b => !xsweep a b && scalarKernel a == scalarKernel b
  | .noXsweepScalarSeperateShapeMatch, a, b => shapeMatchRest a b
  | .sameShape, a, b => sameShapeRest bhOpcodeIsElementwise a b
  | .sameShapeRange, a, b => sameShapeRest (fun o => o == .range || bhOpcodeIsElementwise o) a b
  | .sameShapeRandom, a, b => sameShapeRest (fun o => o == .random || bhOpcodeIsElementwise o) a b
  | .sameShapeRangeRandom, a, b => sameShapeRest (fun o => o == .range || o == .random || bhOpcodeIsElementwise o) a b
  | .sameShapeGenerate1dreduce, a, b => reduceRest a b

variable {model : FuseModel} {a b : BhInstruction}

theorem fuseBroadest_system (h : (a.isSystem || b.isSystem) = true) : fuseBroadest a b = true := by
  rw [fuseBroadest, if_pos h]

theorem fuseNoXsweep_split (a b : BhInstruction) : fuseNoXsweep a b = (fuseBroadest a b && !xsweep a b) := rfl

theorem fuseNoXsweepScalarSeperate_split (a b : BhInstruction) : fuseNoXsweepScalarSeperate a b =
    (fuseBroadest a b && (!xsweep a b && scalarKernel a == scalarKernel b)) := by
  rw [fuseNoXsweepScalarSeperate, fuseNoXsweep_split, Bool.and_assoc]
  congr 2
  cases scalarKernel a <;> cases scalarKernel b <;> rfl

theorem fuseSameShapeOver_split (accept : BhOpcode → Bool) (a b : BhInstruction) :
    fuseSameShapeOver accept a b = (fuseBroadest a b && sameShapeRest accept a b) := by
  unfold fuseSameShapeOver sameShapeRest
  cases hs : a.isSystem || b.isSystem with
  | true => rw [if_pos rfl, fuseBroadest_system hs, Bool.true_or, Bool.and_true]
  | false =>
    rw [if_neg Bool.false_ne_true, Bool.false_or]
    cases accept a.opcode <;> cases accept b.opcode <;> simp [Bool.and_comm]

theorem fuseSameShapeGenerate1dreduce_split (a b : BhInstruction) :
    fuseSameShapeGenerate1dreduce a b = (fuseBroadest a b && reduceRest a b) := by
  unfold fuseSameShapeGenerate1dreduce reduceRest
  cases hs : a.isSystem || b.isSystem with
  | true => rw [if_pos rfl, fuseBroadest_system hs, Bool.true_or, Bool.and_true]
  | false =>
    rw [if_neg Bool.false_ne_true, Bool.false_or]
    cases generateOrReduce a.opcode <;> cases generateOrReduce b.opcode <;>
      cases bhOpcodeIsReduction a.opcode <;> cases bhOpcodeIsReduction b.opcode <;> simp [Bool.and_comm]

theorem checkFusible_split (model : FuseModel) (a b : BhInstruction) :
    checkFusible model a b = (fuseBroadest a b && modelRest model a b) := by
  cases model with
  | broadest => exact (Bool.and_true _).symm
  | noXsweep => rfl
  | noXsweepScalarSeperate => exact fuseNoXsweepScalarSeperate_split a b
  | noXsweepScalarSeperateShapeMatch =>
    show fuseNoXsweepScalarSeperateShapeMatch a b = (fuseBroadest a b && shapeMatchRest a b)
    unfold fuseNoXsweepScalarSeperateShapeMatch shapeMatchRest shapeMatchMissed
    cases hs : a.isSystem || b.isSystem with
    | true => rw [if_pos rfl, fuseBroadest_system hs]; rfl
    | false =>
      rw [if_neg Bool.false_ne_true, Bool.false_or, Bool.false_or, fuseNoXsweepScalarSeperate_split, Bool.and_left_comm,
        Bool.and_assoc]
  | sameShape => exact fuseSameShapeOver_split bhOpcodeIsElementwise a b
  | sameShapeRange => exact fuseSameShapeOver_split (fun o => o == .range || bhOpcodeIsElementwise o) a b
  | sameShapeRandom => exact fuseSameShapeOver_split (fun o => o == .random || bhOpcodeIsElementwise o) a b
  | sameShapeRangeRandom =>
    exact fuseSameShapeOver_split (fun o => o == .range || o == .random || bhOpcodeIsElementwise o) a b
  | sameShapeGenerate1dreduce => exact fuseSameShapeGenerate1dreduce_split a b

/-! ## What a third kernel does not settle -/

/-- The part of `modelRest` that does not carry over from two instructions to a third. -/
def modelMissed : FuseModel → BhInstruction → BhInstruction → Bool
  | .noXsweep, a, b => !xsweep a b
  | .noXsweepScalarSeperate, a, b => !xsweep a b
  | .noXsweepScalarSeperateShapeMatch, a, b => shapeMatchMissed a b
  | .sameShapeGenerate1dreduce, a, b => reduceRest a b
  | _, _, _ => true

theorem modelMissed_of_rest (h : modelRest model a b = true) : modelMissed model a b = true := by
  cases model with
  | noXsweep => exact h
  | noXsweepScalarSeperate => exact (Bool.and_eq_true_iff.mp h).1
  | noXsweepScalarSeperateShapeMatch => exact (Bool.and_eq_true_iff.mp h).1
  | sameShapeGenerate1dreduce => exact h
  | _ => rfl

theorem sameShapeRest_through {accept : BhOpcode → Bool} {c : BhInstruction} (hc : c.isSystem = false)
    (hout : bhIsConstant c.operand0 = false) (ha : sameShapeRest accept a c = true)
    (hb : sameShapeRest accept b c = true) : sameShapeRest accept a b = true := by
  unfold sameShapeRest at ha hb ⊢
  cases hsa : a.isSystem with
  | true => rfl
  | false =>
  cases hsb : b.isSystem with
  | true => rfl
  | false =>
  rw [hsa, hc, Bool.false_or, Bool.false_or] at ha
  rw [hsb, hc, Bool.false_or, Bool.false_or] at hb
  simp only [Bool.and_eq_true] at ha hb
  obtain ⟨⟨⟨ha1, _⟩, ha2⟩, ha3⟩ := ha
  obtain ⟨⟨⟨hb1, _⟩, hb2⟩, hb3⟩ := hb
  have hmem := BhInstruction.operand0_mem (bhOperands_ne_zero_of_not_system hc)
  have hshape : b.operand0.shape = a.operand0.shape :=
    (allOfShape_eq_true hb3 hmem hout).symm.trans (allOfShape_eq_true ha3 hmem hout)
  rw [Bool.false_or, Bool.false_or, ha1, hb1, ha2, BhInstruction.operands_eq_cons (bhOperands_ne_zero_of_not_system hsb)]
  simp only [Bool.true_and]
  rw [hshape] at hb2
  show ((_ || _) && allOfShape a.operand0.shape b.inputs) = true
  rw [hb2, hshape, beq_self_eq_true, Bool.or_true, Bool.and_true]

/-- Two instructions that both go with an operation on an array. -/
theorem modelRest_through {c : BhInstruction} (hc : c.isSystem = false) (hout : bhIsConstant c.operand0 = false)
    (ha : modelRest model a c = true) (hb : modelRest model b c = true) (h : modelMissed model a b = true) :
    modelRest model a b = true := by
  cases model with
  | broadest => rfl
  | noXsweep => exact h
  | noXsweepScalarSeperate =>
    have hsa := (Bool.and_eq_true_iff.mp ha).2
    have hsb := (Bool.and_eq_true_iff.mp hb).2
    rw [beq_iff_eq] at hsa hsb
    exact Bool.and_eq_true_iff.mpr ⟨h, by rw [hsa, hsb, beq_self_eq_true]⟩
  | noXsweepScalarSeperateShapeMatch =>
    refine Bool.and_eq_true_iff.mpr ⟨h, ?_⟩
    have hsa := (Bool.and_eq_true_iff.mp ha).2
    have hsb := (Bool.and_eq_true_iff.mp hb).2
    cases hs : a.isSystem || b.isSystem with
    | true => rfl
    | false =>
      obtain ⟨has, hbs⟩ := Bool.or_eq_false_iff.mp hs
      rw [has, hc, Bool.or_self, Bool.false_or, beq_iff_eq] at hsa
      rw [hbs, hc, Bool.or_self, Bool.false_or, beq_iff_eq] at hsb
      rw [Bool.false_or, hsa, hsb, beq_self_eq_true]
  | sameShape => exact @sameShapeRest_through a b bhOpcodeIsElementwise c hc hout ha hb
  | sameShapeRange =>
    exact @sameShapeRest_through a b (fun o => o == .range || bhOpcodeIsElementwise o) c hc hout ha hb
  | sameShapeRandom =>
    exact @sameShapeRest_through a b (fun o => o == .random || bhOpcodeIsElementwise o) c hc hout ha hb
  | sameShapeRangeRandom =>
    exact @sameShapeRest_through a b (fun o => o == .range || o == .random || bhOpcodeIsElementwise o) c hc hout ha hb
  | sameShapeGenerate1dreduce => exact h

/-! ## A kernel and its neighbour -/

namespace BhIrKernel

/-- The operands of `i` that the in- and outputs of `k` do not hold do not overlap those of `j`, or only
element by element. -/
def OverlapMissed (k : BhIrKernel) (i j : BhInstruction) : Prop :=
  i.isSystem = false → j.isSystem = false →
    (i.operand0 ∉ k.outputSet → ∀ y ∈ j.operands, disjointOrAligned i.operand0 y = true) ∧
      ∀ x ∈ i.operands, x ∉ k.inputSet → x ∉ k.outputSet → disjointOrAligned j.operand0 x = true

/-- Nothing that the sets of `k` leave out keeps `other` from being fused with it: the operands they do not
hold, what the model asks of sweeps and shapes, and everything the model asks when the neighbour `w` has no
operation on an array to compare with. -/
def NothingMissed (model : FuseModel) (l : List BhInstruction) (k w other : BhIrKernel) : Prop :=
  ∀ j ∈ kernelInstrs l other.instrIndexes, ∀ i ∈ kernelInstrs l k.instrIndexes,
    OverlapMissed k i j ∧ modelMissed model j i = true ∧
      ((∃ c ∈ kernelInstrs l w.instrIndexes, c.isSystem = false ∧ bhIsConstant c.operand0 = false) ∨
        modelRest model j i = true)

instance (k : BhIrKernel) (i j : BhInstruction) : Decidable (k.OverlapMissed i j) := by
  unfold OverlapMissed
  infer_instance

instance (model : FuseModel) (l : List BhInstruction) (k w other : BhIrKernel) :
    Decidable (NothingMissed model l k w other) := by
  unfold NothingMissed
  infer_instance

variable {model : FuseModel} {l : List BhInstruction} {k w other : BhIrKernel}

theorem fusibleKernel_iff_instrs : k.fusibleKernel model l other = true ↔
    ∀ i ∈ kernelInstrs l k.instrIndexes, ∀ j ∈ kernelInstrs l other.instrIndexes, checkFusible model i j = true := by
  simp [fusibleKernel, kernelInstrs]

theorem subset_of_inputAndOutputSubsetOf (h : k.inputAndOutputSubsetOf w = true) :
    (∀ v ∈ k.inputSet, v ∈ w.inputSet) ∧ ∀ v ∈ k.outputSet, v ∈ w.outputSet := by
  simp only [inputAndOutputSubsetOf, Bool.and_eq_true, List.all_eq_true, decide_eq_true_eq] at h
  exact ⟨h.1.2, h.2⟩

theorem Replayed.mem_outputSet (h : w.Replayed l) {v : BhView} (hv : v ∈ w.outputSet) :
    WrittenView (kernelInstrs l w.instrIndexes) v := by
  rw [(tallied_of_replayed h).outputs] at hv
  exact Tally.writtenView_of_mem_outputs hv

theorem Replayed.mem_inputSet (h : w.Replayed l) {v : BhView} (hv : v ∈ w.inputSet) :
    ∃ c ∈ kernelInstrs l w.instrIndexes, c.isSystem = false ∧ v ∈ c.operands := by
  rw [(tallied_of_replayed h).inputs] at hv
  exact (Tally.mem_inputs_after hv).2

/-- What the sets hold, the neighbour has in its instructions, and was tested there. -/
theorem fuseBroadest_iff_missed (hw : w.Replayed l) (hsub : k.inputAndOutputSubsetOf w = true) {i j : BhInstruction}
    (hj : ∀ c ∈ kernelInstrs l w.instrIndexes, checkFusible model j c = true) :
    fuseBroadest j i = true ↔ OverlapMissed k i j := by
  obtain ⟨hin, hout⟩ := subset_of_inputAndOutputSubsetOf hsub
  unfold OverlapMissed
  cases hsi : i.isSystem with
  | true =>
    refine iff_of_true (fuseBroadest_system (by rw [hsi, Bool.or_true])) ?_
    intro h
    cases h
  | false =>
  cases hsj : j.isSystem with
  | true =>
    refine iff_of_true (fuseBroadest_system (by rw [hsj, Bool.true_or])) ?_
    intro _ h
    cases h
  | false =>
  have htested : ∀ c ∈ kernelInstrs l w.instrIndexes, c.isSystem = false →
      (∀ v ∈ j.operands, disjointOrAligned c.operand0 v = true) ∧
        ∀ v ∈ c.operands, disjointOrAligned j.operand0 v = true := by
    intro c hc hsc
    have hjc := hj c hc
    rw [checkFusible_split, Bool.and_eq_true_iff] at hjc
    exact fuseBroadest_spec hsj hsc hjc.1
  constructor
  · intro h _ _
    obtain ⟨h1, h2⟩ := fuseBroadest_spec hsj hsi h
    exact ⟨fun _ => h1, fun x hx _ _ => h2 x hx⟩
  · intro h
    obtain ⟨h1, h2⟩ := h rfl rfl
    have hout1 : ∀ y ∈ j.operands, disjointOrAligned i.operand0 y = true := by
      by_cases hmem : i.operand0 ∈ k.outputSet
      · obtain ⟨c, hc, hsc, heq⟩ := hw.mem_outputSet (hout _ hmem)
        rw [← heq]
        exact (htested c hc hsc).1
      · exact h1 hmem
    have hin1 : ∀ x ∈ i.operands, disjointOrAligned j.operand0 x = true := by
      intro x hx
      by_cases hxi : x ∈ k.inputSet
      · obtain ⟨c, hc, hsc, hxc⟩ := hw.mem_inputSet (hin x hxi)
        exact (htested c hc hsc).2 x hxc
      by_cases hxo : x ∈ k.outputSet
      · obtain ⟨c, hc, hsc, rfl⟩ := hw.mem_outputSet (hout x hxo)
        exact (htested c hc hsc).2 _ (BhInstruction.operand0_mem (bhOperands_ne_zero_of_not_system hsc))
      · exact h2 x hx hxi hxo
    rw [fuseBroadest, if_neg (by rw [hsi, hsj]; exact Bool.false_ne_true), Bool.and_eq_true_iff, List.all_eq_true,
      List.all_eq_true]
    exact ⟨hout1, hin1⟩

/-- A kernel fusible with the neighbour `w` is fusible with `k` exactly if nothing is missed. -/
theorem fusibleKernel_iff_nothingMissed (hw : w.Replayed l) (hsub : k.inputAndOutputSubsetOf w = true)
    (hkw : k.fusibleKernel model l w = true) (how : other.fusibleKernel model l w = true) :
    other.fusibleKernel model l k = true ↔ NothingMissed model l k w other := by
  rw [fusibleKernel_iff_instrs] at hkw how ⊢
  refine forall₂_congr fun j hj => forall₂_congr fun i hi => ?_
  rw [checkFusible_split, Bool.and_eq_true_iff, @fuseBroadest_iff_missed model l k w hw hsub i j (how j hj)]
  apply and_congr_right
  intro _
  constructor
  · exact fun h => ⟨modelMissed_of_rest h, Or.inr h⟩
  · rintro ⟨hmissed, ⟨c, hc, hsc, hout⟩ | hrest⟩
    · have hjc := how j hj c hc
      have hic := hkw i hi c hc
      rw [checkFusible_split, Bool.and_eq_true_iff] at hjc hic
      exact modelRest_through hsc hout hjc.2 hic.2 hmissed
    · exact hrest

end BhIrKernel

/-! ## The merges of a run -/

namespace GraphDW
variable (model : FuseModel) (l : List BhInstruction)

/-- A merge of `fuse_gently`: the graph before it, the vertex, its neighbour, and whether the neighbour comes
first. -/
structure GentleMerge where
  graph : GraphDW
  it : ℕ
  v : ℕ
  vBeforeIt : Bool
  deriving DecidableEq

def GentleMerge.merged (m : GentleMerge) : GraphDW := m.graph.mergeVertices model l m.v m.it m.vBeforeIt

/-- The merges that `fuseGentlyLoop` makes, in their order. -/
def gentleMerges : ℕ → List ℕ → GraphDW → List GentleMerge
  | 0, _, _ => []
  | fuel + 1, vs, g =>
    match vs.findSome? fun v => (g.singleEnding v).map fun p => (v, p.1, p.2) with
    | none => []
    | some (v, w, wBeforeV) =>
      if (g.kernel v).fusibleKernel model l (g.kernel w) then
        ⟨g, v, w, wBeforeV⟩ :: gentleMerges fuel (vs.erase v) (g.mergeVertices model l w v wBeforeV)
      else gentleMerges fuel (vs.erase v) g

variable {l} {g : GraphDW}

/-- The loop is these merges one after the other. -/
theorem fuseGentlyLoop_eq_foldl (fuel : ℕ) (vs : List ℕ) : fuseGentlyLoop model l fuel vs g =
    (gentleMerges model l fuel vs g).foldl (fun g m => g.mergeVertices model l m.v m.it m.vBeforeIt) g := by
  induction fuel generalizing vs g with
  | zero => rfl
  | succ fuel ih =>
    rw [fuseGentlyLoop, gentleMerges]
    cases vs.findSome? fun v => (g.singleEnding v).map fun p => (v, p.1, p.2) with
    | none => rfl
    | some t =>
      obtain ⟨v, w, wBeforeV⟩ := t
      dsimp only
      split_ifs
      · rw [List.foldl_cons]
        exact ih _
      · exact ih _

theorem subset_of_singleEnding {v w : ℕ} {wBeforeV : Bool} (h : g.singleEnding v = some (w, wBeforeV)) :
    (g.kernel v).inputAndOutputSubsetOf (g.kernel w) = true := by
  unfold singleEnding at h
  split at h
  · split_ifs at h with hsub
    obtain ⟨rfl, _⟩ := Prod.mk.inj (Option.some.inj h)
    exact hsub
  · split_ifs at h with hsub
    obtain ⟨rfl, _⟩ := Prod.mk.inj (Option.some.inj h)
    exact hsub
  · cases h

/-- What `fuse_gently` has checked when it merges. -/
structure GentleMerge.Checked (l : List BhInstruction) (m : GentleMerge) : Prop where
  sound : m.graph.Sound l
  replayed : m.graph.Replayed l
  ending : m.graph.singleEnding m.it = some (m.v, m.vBeforeIt)
  fusible : (m.graph.kernel m.it).fusibleKernel model l (m.graph.kernel m.v) = true

theorem checked_of_mem {m : GentleMerge} {fuel : ℕ} {vs : List ℕ} (hs : g.Sound l) (hr : g.Replayed l)
    (hm : m ∈ gentleMerges model l fuel vs g) : m.Checked model l := by
  induction fuel generalizing vs g with
  | zero => cases hm
  | succ fuel ih =>
    rw [gentleMerges] at hm
    cases hf : vs.findSome? fun v => (g.singleEnding v).map fun p => (v, p.1, p.2) with
    | none =>
      rw [hf] at hm
      cases hm
    | some t =>
      obtain ⟨v, w, wBeforeV⟩ := t
      rw [hf] at hm
      obtain ⟨v', _, hv'⟩ := List.exists_of_findSome?_eq_some hf
      obtain ⟨p, hp, heq⟩ := Option.map_eq_some_iff.mp hv'
      obtain ⟨rfl, hw⟩ := Prod.mk.inj heq
      have hending : g.singleEnding v' = some (w, wBeforeV) := hp.trans (congrArg some hw)
      dsimp only at hm
      split_ifs at hm with hfus
      · rcases List.mem_cons.mp hm with rfl | hm
        · exact ⟨hs, hr, hending, hfus⟩
        · have hmerge := mergeable_of_singleEnding hs hending
          exact ih (hs.merge model hmerge) (hr.mergeVertices hmerge) hm
      · exact ih hs hr hm

/-- The kernel that comes out of a merge is fusible with whatever both are. -/
theorem fusible_merged_iff {m : GentleMerge} (hm : m.Checked model l) {u : ℕ} (hui : u ≠ m.it) (huv : u ≠ m.v) :
    ((m.merged model l).kernel u).fusibleKernel model l ((m.merged model l).kernel m.v) = true ↔
      (m.graph.kernel u).fusibleKernel model l (m.graph.kernel m.v) = true ∧
        (m.graph.kernel u).fusibleKernel model l (m.graph.kernel m.it) = true := by
  have hmerge := mergeable_of_singleEnding hm.sound hm.ending
  obtain ⟨hu, hv, _⟩ := kernel_mergeVertices model m.vBeforeIt hmerge.live_left.lt hmerge.live_right.lt u
  unfold GentleMerge.merged
  rw [hu huv hui]
  simp only [BhIrKernel.fusibleKernel]
  rw [hv hmerge.ne]
  split_ifs
  · simp only [List.all_append, List.all_eq_true, Bool.and_eq_true, forall_and]
  · simp only [List.all_append, List.all_eq_true, Bool.and_eq_true, forall_and]
    exact and_comm

/-- No merge of the run takes a possible fusing away from a third kernel. -/
def KeepsFusings (l : List BhInstruction) (g : GraphDW) : Prop :=
  ∀ m ∈ gentleMerges model l g.numVertices (List.range g.numVertices) g, ∀ u, u ≠ m.it → u ≠ m.v →
    (m.graph.kernel u).fusibleKernel model l (m.graph.kernel m.v) = true →
      ((m.merged model l).kernel u).fusibleKernel model l ((m.merged model l).kernel m.v) = true

/-- `fuse_gently` makes these merges one after the other, and they keep the fusings exactly if each misses nothing. -/
theorem keepsFusings_iff (hs : g.Sound l) (hr : g.Replayed l) :
    g.fuseGently model l = ((gentleMerges model l g.numVertices (List.range g.numVertices) g).foldl
      (fun g m => g.mergeVertices model l m.v m.it m.vBeforeIt) g).removeClearedVertices ∧
    (KeepsFusings model l g ↔
      ∀ m ∈ gentleMerges model l g.numVertices (List.range g.numVertices) g, ∀ u, u ≠ m.it → u ≠ m.v →
        (m.graph.kernel u).fusibleKernel model l (m.graph.kernel m.v) = true →
          BhIrKernel.NothingMissed model l (m.graph.kernel m.it) (m.graph.kernel m.v) (m.graph.kernel u)) := by
  refine ⟨by rw [fuseGently, fuseGentlyLoop_eq_foldl], ?_⟩
  refine forall₂_congr fun m hm => forall_congr' fun u => forall₂_congr fun hui huv => forall_congr' fun hfus => ?_
  have hchecked := checked_of_mem model hs hr hm
  have hlive := (mergeable_of_singleEnding hchecked.sound hchecked.ending).live_left
  rw [fusible_merged_iff model hchecked hui huv, ← BhIrKernel.fusibleKernel_iff_nothingMissed
    (hchecked.replayed m.v hlive) (subset_of_singleEnding hchecked.ending) hchecked.fusible hfus]
  exact and_iff_right hfus

/-- `a = a + 1; t = a; discard t; c = 1`. -/
def droppedCopy : List BhInstruction :=
  [⟨.add, ⟨some ⟨0, .int64, 2⟩, 0, [⟨2, 1⟩]⟩, ⟨some ⟨0, .int64, 2⟩, 0, [⟨2, 1⟩]⟩, ⟨none, 0, []⟩, .int .int64 1⟩,
    ⟨.identity, ⟨some ⟨1, .int64, 2⟩, 0, [⟨2, 1⟩]⟩, ⟨some ⟨0, .int64, 2⟩, 0, [⟨2, 1⟩]⟩, ⟨none, 0, []⟩, .int .int64 0⟩,
    ⟨.discard, ⟨some ⟨1, .int64, 2⟩, 0, [⟨2, 1⟩]⟩, ⟨none, 0, []⟩, ⟨none, 0, []⟩, .int .int64 0⟩,
    ⟨.identity, ⟨some ⟨2, .int64, 2⟩, 0, [⟨2, 1⟩]⟩, ⟨none, 0, []⟩, ⟨none, 0, []⟩, .int .int64 1⟩]

/-- The copy is merged into the addition, and the third kernel can still be fused with both. -/
theorem keepsFusings_droppedCopy :
    KeepsFusings .noXsweep droppedCopy (fromBhir droppedCopy .noXsweep) := by
  refine (keepsFusings_iff .noXsweep (sound_fromBhir .noXsweep droppedCopy).1
    (replayed_fromBhir .noXsweep droppedCopy)).2.mpr ?_
  have hmerges : gentleMerges .noXsweep droppedCopy (fromBhir droppedCopy .noXsweep).numVertices
      (List.range (fromBhir droppedCopy .noXsweep).numVertices) (fromBhir droppedCopy .noXsweep) =
        [⟨fromBhir droppedCopy .noXsweep, 1, 0, true⟩] := by
    decide +kernel
  intro m hm u hu1 hu0 _
  rw [hmerges] at hm
  obtain rfl := List.mem_singleton.mp hm
  dsimp only at hu1 hu0 ⊢
  by_cases hu : u = 2
  · subst hu
    decide +kernel
  · have hge : (fromBhir droppedCopy .noXsweep).numVertices ≤ u := by
      have hnum : (fromBhir droppedCopy .noXsweep).numVertices = 3 := by decide +kernel
      omega
    rw [kernel_of_ge _ hge]
    intro j hj
    cases hj

/-- `a = a + 1; t = add.reduce(a, 0); discard t; s = add.reduce(c, 1)`: the graph of `from_bhir`. -/
def droppedSweep : List BhInstruction :=
  [⟨.add, ⟨some ⟨0, .int64, 4⟩, 0, [⟨2, 2⟩, ⟨2, 1⟩]⟩, ⟨some ⟨0, .int64, 4⟩, 0, [⟨2, 2⟩, ⟨2, 1⟩]⟩, ⟨none, 0, []⟩,
      .int .int64 1⟩,
    ⟨.addReduce, ⟨some ⟨1, .int64, 2⟩, 0, [⟨2, 1⟩]⟩, ⟨some ⟨0, .int64, 4⟩, 0, [⟨2, 2⟩, ⟨2, 1⟩]⟩, ⟨none, 0, []⟩,
      .int .int64 0⟩,
    ⟨.discard, ⟨some ⟨1, .int64, 2⟩, 0, [⟨2, 1⟩]⟩, ⟨none, 0, []⟩, ⟨none, 0, []⟩, .int .int64 0⟩,
    ⟨.addReduce, ⟨some ⟨2, .int64, 2⟩, 0, [⟨2, 1⟩]⟩, ⟨some ⟨3, .int64, 4⟩, 0, [⟨2, 2⟩, ⟨2, 1⟩]⟩, ⟨none, 0, []⟩,
      .int .int64 1⟩]

/-- The second reduction was fusible with `a = a + 1`, and is not with the two kernels merged. -/
theorem not_keepsFusings_droppedSweep : (fromBhir droppedSweep .noXsweep).Sound droppedSweep ∧
    (fromBhir droppedSweep .noXsweep).Replayed droppedSweep ∧
      ¬ KeepsFusings .noXsweep droppedSweep (fromBhir droppedSweep .noXsweep) := by
  refine ⟨(sound_fromBhir .noXsweep droppedSweep).1, replayed_fromBhir .noXsweep droppedSweep, ?_⟩
  intro hkeeps
  have hmem : (⟨fromBhir droppedSweep .noXsweep, 1, 0, true⟩ : GentleMerge) ∈
      gentleMerges .noXsweep droppedSweep (fromBhir droppedSweep .noXsweep).numVertices
        (List.range (fromBhir droppedSweep .noXsweep).numVertices) (fromBhir droppedSweep .noXsweep) := by
    decide +kernel
  have hlost := hkeeps _ hmem 2 (by decide) (by decide) (by decide +kernel)
  exact absurd hlost (by decide +kernel)

end GraphDW

end Bohrium
