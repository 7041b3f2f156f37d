import Bohrium.Core.Fuse

/-! # Kernels

`bh_ir_kernel` (`core/bh_ir.cpp`) and the `seqset` it keeps its views in (`bh_seqset.h`). A kernel
holds indices into an instruction list; the list, which the source reaches through the pointer
`bhir`, is an argument here. Sets and maps are lists without duplicates in insertion order. -/
namespace Bohrium
set_option autoImplicit false

/-- Insertion into a set. -/
def setInsert {α : Type} [DecidableEq α] (x : α) (s : List α) : List α := if x ∈ s then s else s ++ [x]

def setErase {α : Type} [DecidableEq α] (x : α) (s : List α) : List α := s.filter (· ≠ x)

theorem mem_setInsert {α : Type} [DecidableEq α] {x y : α} {s : List α} :
    y ∈ setInsert x s ↔ y = x ∨ y ∈ s := by
  unfold setInsert
  split_ifs with h
  · exact ⟨Or.inr, fun hy => hy.elim (fun e => e ▸ h) id⟩
  · simp [or_comm]

/-! ## Sequence sets -/

/-- `seqset`: its elements with the ids they were given, and the next id. -/
structure Seqset (α : Type) where
  maxid : ℕ := 0
  map : List (α × ℕ) := []
  deriving DecidableEq, Repr

namespace Seqset
variable {α : Type} [DecidableEq α]

def find (s : Seqset α) (v : α) : Option ℕ := s.map.lookup v

/-- `insert`: the set, the id of the element, and whether it is new. -/
def insert (s : Seqset α) (v : α) : Seqset α × ℕ × Bool :=
  match s.find v with
  | some id => (s, id, false)
  | none => (⟨s.maxid + 1, s.map ++ [(v, s.maxid)]⟩, s.maxid, true)

def erase (s : Seqset α) (v : α) : Seqset α := { s with map := s.map.filter (·.1 ≠ v) }

theorem mem_of_find {s : Seqset α} {v : α} {id : ℕ} (h : s.find v = some id) :
    ∃ p ∈ s.map, p.1 = v := by
  unfold Seqset.find at h
  obtain ⟨l₁, l₂, heq, _⟩ := List.lookup_eq_some_iff.mp h
  exact ⟨(v, id), by rw [heq]; simp, rfl⟩

/-- What insertion does to the elements. -/
theorem insert_spec (s : Seqset α) (v : α) :
    ((s.insert v).2.2 = false ∧ (s.insert v).1 = s ∧ ∃ p ∈ s.map, p.1 = v) ∨
      ((s.insert v).2.2 = true ∧ (s.insert v).1.map = s.map ++ [(v, s.maxid)]) := by
  unfold Seqset.insert
  cases hf : s.find v with
  | some id => exact Or.inl ⟨rfl, rfl, mem_of_find hf⟩
  | none => exact Or.inr ⟨rfl, rfl⟩

end Seqset

/-! ## The kernel -/

structure BhIrKernel where
  temps : List (Option BhBase) := []
  frees : List (Option BhBase) := []
  discards : List (Option BhBase) := []
  syncs : List (Option BhBase) := []
  views : Seqset BhView := {}
  parameters : Seqset (Option BhBase) := {}
  outputMap : List (Option BhBase × BhView) := []
  outputSet : List BhView := []
  inputMap : List (Option BhBase × BhView) := []
  inputSet : List BhView := []
  inputShape : List ℕ := []
  outputShape : List ℕ := []
  scalar : Bool := false
  sweeps : List (ℕ × ℤ) := []
  constants : List BhConstant := []
  instrIndexes : List ℕ := []
  deriving DecidableEq, Repr

/-- The instruction at an index; outside the list there is nothing to execute. -/
def instrAt (l : List BhInstruction) (idx : ℕ) : BhInstruction :=
  l.getD idx ⟨.none, ⟨none, 0, []⟩, ⟨none, 0, []⟩, ⟨none, 0, []⟩, .int .int64 0⟩

theorem dependencyAt_eq (l : List BhInstruction) (i j : ℕ) :
    dependencyAt l i j = bhInstrDependency (instrAt l i) (instrAt l j) := by
  unfold dependencyAt instrAt
  rw [List.getD_eq_getElem?_getD, List.getD_eq_getElem?_getD]
  cases l[i]? <;> cases l[j]? <;> simp [bhInstrDependency, bhOperands]

namespace BhIrKernel

/-- `clear`: every field but `sweeps` and `constants`. -/
def clear (k : BhIrKernel) : BhIrKernel := { sweeps := k.sweeps, constants := k.constants }

/-- The `BH_DISCARD` case of `add_instr`: an array the kernel itself wrote becomes temporary. -/
def addDiscard (k : BhIrKernel) (base : Option BhBase) : BhIrKernel :=
  if base ∈ k.syncs then { k with discards := setInsert base k.discards }
  else
    let written := k.outputMap.filter (·.1 = base)
    let k' := { k with
      outputSet := k.outputSet.filter (· ∉ written.map Prod.snd)
      outputMap := k.outputMap.filter (·.1 ≠ base) }
    if written ≠ [] ∧ ∀ p ∈ k.inputMap, p.1 ≠ base then
      { k' with
        temps := setInsert base k'.temps
        frees := setErase base k'.frees
        parameters := k'.parameters.erase base }
    else { k' with discards := setInsert base k'.discards }

/-- One input operand of the default case. -/
def addInput (sweep : Bool) (constant : BhConstant) (k : BhIrKernel) (v : BhView) : BhIrKernel :=
  if bhIsConstant v then
    if sweep then k else { k with constants := k.constants ++ [constant] }
  else
    let (views, _, new) := k.views.insert (bhViewSimplify v)
    let k := { k with views := views }
    let k := if new then
      { k with
        inputMap := k.inputMap ++ [(v.base, v)]
        inputSet := setInsert v k.inputSet
        parameters := (k.parameters.insert v.base).1 }
      else k
    if k.inputShape.length < v.ndim then { k with inputShape := v.shape } else k

/-- The output operand of the default case. -/
def addOutput (opcode : BhOpcode) (k : BhIrKernel) (v : BhView) : BhIrKernel :=
  let sv := bhViewSimplify v
  { k with
    views := (k.views.insert sv).1
    outputMap := k.outputMap ++ [(v.base, v)]
    outputSet := setInsert v k.outputSet
    parameters := (k.parameters.insert v.base).1
    outputShape := if v.ndim < k.outputShape.length ∨ k.outputShape.length = 0 then v.shape
      else k.outputShape
    scalar := k.scalar || bhIsScalar v || (bhOpcodeIsAccumulate opcode && sv.ndim == 1)
    inputShape := if k.inputShape.length < v.ndim then v.shape else k.inputShape }

/-- `sweeps[ndim] = axis`. -/
def addSweep (k : BhIrKernel) (ndim : ℕ) (axis : ℤ) : BhIrKernel :=
  { k with sweeps := k.sweeps.filter (·.1 ≠ ndim) ++ [(ndim, axis)] }

/-- The effect of `add_instr` on everything but `instr_indexes`. -/
def record (k : BhIrKernel) (instr : BhInstruction) : BhIrKernel :=
  match instr.opcode with
  | .none => k
  | .sync => { k with syncs := setInsert instr.operand0.base k.syncs }
  | .discard => k.addDiscard instr.operand0.base
  | .free =>
    if instr.operand0.base ∈ k.temps then k
    else { k with frees := setInsert instr.operand0.base k.frees }
  | opcode =>
    let sweep := bhOpcodeIsSweep opcode
    let k := instr.inputs.foldl (addInput sweep instr.constant) k
    let k := k.addOutput opcode instr.operand0
    if sweep then k.addSweep instr.operand1.ndim instr.constant.int64 else k

def addInstr (l : List BhInstruction) (k : BhIrKernel) (idx : ℕ) : BhIrKernel :=
  { k.record (instrAt l idx) with instrIndexes := k.instrIndexes ++ [idx] }

def isNoop (l : List BhInstruction) (k : BhIrKernel) : Bool :=
  k.instrIndexes.all fun idx => (instrAt l idx).opcode == .none

/-! ## Fusibility and dependency -/

/-- `fusible()`: every pair, the earlier instruction first. -/
def fusible (model : FuseModel) (l : List BhInstruction) (k : BhIrKernel) : Bool :=
  decide (k.instrIndexes.Pairwise fun i j => checkFusible model (instrAt l i) (instrAt l j) = true)

/-- `fusible(instr_idx)`: the new instruction first. -/
def fusibleInstr (model : FuseModel) (l : List BhInstruction) (k : BhIrKernel) (idx : ℕ) : Bool :=
  k.instrIndexes.all fun i => checkFusible model (instrAt l idx) (instrAt l i)

/-- `fusible(other)`: the instructions of this kernel first. -/
def fusibleKernel (model : FuseModel) (l : List BhInstruction) (k other : BhIrKernel) : Bool :=
  k.instrIndexes.all fun i => other.instrIndexes.all fun j =>
    checkFusible model (instrAt l i) (instrAt l j)

def inputAndOutputSubsetOf (k other : BhIrKernel) : Bool :=
  decide (k.inputSet.length ≤ other.inputSet.length) &&
    decide (k.outputSet.length ≤ other.outputSet.length) &&
    k.inputSet.all (· ∈ other.inputSet) && k.outputSet.all (· ∈ other.outputSet)

/-- `dependency(instr_idx)`, all instructions checked as in a debug build: the last dependent
instruction decides. The asserts that earlier ones agree are not modelled. -/
def dependencyInstr (l : List BhInstruction) (k : BhIrKernel) (idx : ℕ) : ℤ :=
  k.instrIndexes.foldl (fun ret this =>
    if bhInstrDependency (instrAt l idx) (instrAt l this) then (if idx ≤ this then 1 else -1)
    else ret) 0

/-- `dependency(other)`: `1` if this kernel depends on the other, `-1` the other way round. -/
def dependency (l : List BhInstruction) (k other : BhIrKernel) : ℤ :=
  other.instrIndexes.foldl (fun ret idx =>
    if k.dependencyInstr l idx ≠ 0 then k.dependencyInstr l idx else ret) 0

/-! ## Cost -/

def costOfView (v : BhView) : ℕ :=
  bhNelementsNbcast v * (v.base.map fun b => bhTypeSize b.type).getD 0

def cost (k : BhIrKernel) : ℕ := (k.inputSet.map costOfView).sum + (k.outputSet.map costOfView).sum

/-- What `b`, executed first, saves the kernel `a` that comes after it. -/
def priceDrop (l : List BhInstruction) (a b : BhIrKernel) : ℕ :=
  (a.inputSet.map fun i =>
    ((b.outputSet ++ b.inputSet).filter (bhViewAligned i)).length * costOfView i).sum +
  ((b.outputSet.filter fun o => a.instrIndexes.any fun idx =>
    (instrAt l idx).opcode == .discard && (instrAt l idx).operand0.base == o.base).map costOfView).sum

/-- `merge_cost_savings` for two kernels at different addresses; `-1` if they are not fusible. -/
def mergeCostSavings (model : FuseModel) (l : List BhInstruction) (k other : BhIrKernel) : ℤ :=
  if !k.fusibleKernel model l other then -1
  else if k.dependency l other = 1 then priceDrop l k other
  else priceDrop l other k

/-! ## What one instruction changes -/

/-- The default case of `add_instr`. -/
theorem record_operation (k : BhIrKernel) {i : BhInstruction} (hs : i.isSystem = false) :
    k.record i =
      let k' := (i.inputs.foldl (addInput (bhOpcodeIsSweep i.opcode) i.constant) k).addOutput i.opcode i.operand0
      if bhOpcodeIsSweep i.opcode then k'.addSweep i.operand1.ndim i.constant.int64 else k' := by
  have hs' : bhOpcodeIsSystem i.opcode = false := hs
  unfold record
  split
  all_goals first
    | rfl
    | (rename_i hop; rw [hop] at hs'; cases hs')

/-! ## What the tests say -/

theorem instrIndexes_addInstr (l : List BhInstruction) (k : BhIrKernel) (idx : ℕ) :
    (k.addInstr l idx).instrIndexes = k.instrIndexes ++ [idx] := rfl

theorem instrIndexes_foldl_addInstr (l : List BhInstruction) (is : List ℕ) (k : BhIrKernel) :
    (is.foldl (addInstr l) k).instrIndexes = k.instrIndexes ++ is := by
  induction is generalizing k with
  | nil => simp
  | cons i is ih => rw [List.foldl_cons, ih, instrIndexes_addInstr, List.append_assoc, List.singleton_append]

/-- Everything in the kernel comes from its instructions, added one by one in the order of their
indices. -/
def Replayed (l : List BhInstruction) (k : BhIrKernel) : Prop := k = k.instrIndexes.foldl (addInstr l) {}

theorem replayed_empty (l : List BhInstruction) : Replayed l {} := rfl

theorem Replayed.foldl {l : List BhInstruction} {k : BhIrKernel} (h : k.Replayed l) (is : List ℕ) :
    (is.foldl (addInstr l) k).Replayed l := by
  unfold Replayed
  rw [instrIndexes_foldl_addInstr, List.foldl_append, ← show k = _ from h]

/-- A fold that keeps the last value it is shown. -/
theorem foldl_last {α : Type} (p : α → Bool) (f : α → ℤ) (xs : List α) (r : ℤ) :
    (xs.foldl (fun ret x => if p x then f x else ret) r = r ∧ ∀ x ∈ xs, p x = false) ∨
      ∃ x ∈ xs, p x = true ∧ xs.foldl (fun ret x => if p x then f x else ret) r = f x := by
  induction xs generalizing r with
  | nil => exact Or.inl ⟨rfl, by simp⟩
  | cons y ys ih =>
    rw [List.foldl_cons]
    rcases ih (if p y then f y else r) with ⟨heq, hall⟩ | ⟨x, hx, hp, heq⟩
    · cases hy : p y with
      | true =>
        refine Or.inr ⟨y, List.mem_cons_self, hy, ?_⟩
        rw [hy] at heq
        exact heq
      | false =>
        rw [hy] at heq
        refine Or.inl ⟨heq, fun x hx => ?_⟩
        rcases List.mem_cons.mp hx with rfl | hx
        · exact hy
        · exact hall x hx
    · exact Or.inr ⟨x, List.mem_cons_of_mem y hx, hp, heq⟩

theorem dependencyInstr_cases (l : List BhInstruction) (k : BhIrKernel) (idx : ℕ) :
    (k.dependencyInstr l idx = 0 ∧ ∀ j ∈ k.instrIndexes, dependencyAt l idx j = false) ∨
    (∃ j ∈ k.instrIndexes, dependencyAt l idx j = true ∧
      (k.dependencyInstr l idx = 1 ∧ idx ≤ j ∨ k.dependencyInstr l idx = -1 ∧ j < idx)) := by
  simp only [dependencyAt_eq]
  unfold dependencyInstr
  rcases foldl_last (fun j => bhInstrDependency (instrAt l idx) (instrAt l j))
    (fun j => if idx ≤ j then 1 else -1) k.instrIndexes 0 with ⟨h, hall⟩ | ⟨j, hj, hp, h⟩
  · exact Or.inl ⟨h, hall⟩
  · refine Or.inr ⟨j, hj, hp, ?_⟩
    rw [h]
    split_ifs with hle
    · exact Or.inl ⟨rfl, hle⟩
    · exact Or.inr ⟨rfl, by omega⟩

/-- The three answers of `dependency`, each with the dependent instructions behind it. -/
theorem dependency_cases (l : List BhInstruction) (k other : BhIrKernel) :
    (k.dependency l other = 0 ∧
      ∀ i ∈ other.instrIndexes, ∀ j ∈ k.instrIndexes, dependencyAt l i j = false) ∨
    (k.dependency l other = 1 ∧ ∃ i ∈ other.instrIndexes, ∃ j ∈ k.instrIndexes, i ≤ j ∧
      dependencyAt l i j = true) ∨
    (k.dependency l other = -1 ∧ ∃ i ∈ k.instrIndexes, ∃ j ∈ other.instrIndexes, i < j ∧
      dependencyAt l i j = true) := by
  unfold dependency
  have hfold := foldl_last (fun idx => decide (k.dependencyInstr l idx ≠ 0)) (k.dependencyInstr l)
    other.instrIndexes 0
  simp only [decide_eq_true_eq, decide_eq_false_iff_not, not_not] at hfold
  rcases hfold with ⟨h, hall⟩ | ⟨i, hi, hne, h⟩
  · refine Or.inl ⟨h, fun i hi j hj => ?_⟩
    rcases dependencyInstr_cases l k i with ⟨_, hno⟩ | ⟨_, _, _, h1 | h1⟩
    · exact hno j hj
    · rw [hall i hi] at h1; omega
    · rw [hall i hi] at h1; omega
  · right
    rw [h]
    rcases dependencyInstr_cases l k i with ⟨h0, _⟩ | ⟨j, hj, hdep, ⟨h1, hle⟩ | ⟨h1, hlt⟩⟩
    · exact absurd h0 hne
    · exact Or.inl ⟨h1, i, hi, j, hj, hle, hdep⟩
    · exact Or.inr ⟨h1, j, hj, i, hi, hlt, dependencyAt_comm l i j ▸ hdep⟩

end BhIrKernel
end Bohrium
