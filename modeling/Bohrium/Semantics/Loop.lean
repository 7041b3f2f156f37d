import Bohrium.Core.Instruction
import Bohrium.Library.Reorder

/-! # Loop semantics

What an instruction does to memory: a loop over its index space in row-major order, one store per
index. The arithmetic is a parameter (`Interp`); which locations are read and written, and in which
order, is fixed here for every kind of operation of the opcode table. -/
namespace Bohrium
open Strided Reorder
set_option autoImplicit false

/-- A location: a base array and an element offset. -/
abbrev Loc := BhBase × ℤ

abbrev Mem (V : Type) := Loc → V

/-- The meaning of the operations on values of `V`. Operand types are passed along, since the
opcode alone does not say which conversion or width is meant. -/
structure Interp (V : Type) where
  konst : BhConstant → V
  ewise : BhOpcode → List (Option BhType) → List V → V
  generate : BhOpcode → Option BhType → BhConstant → ℕ → V
  sweep : BhOpcode → Option BhType → V → V → V
  /-- What the reduction of nothing leaves. -/
  neutral : BhOpcode → V
  toIndex : V → ℕ
  /-- Operations that see whole arrays, each with its shape. -/
  other : BhOpcode → BhConstant → List (List ℕ × List V) → List ℕ → V

/-- Exact integers, for the operations that have an integer meaning. -/
def intInterp : Interp ℤ where
  konst := BhConstant.int64
  ewise opcode _ xs :=
    match opcode, xs with
    | .add, [x, y] => x + y
    | .subtract, [x, y] => x - y
    | .multiply, [x, y] => x * y
    | .maximum, [x, y] => max x y
    | .minimum, [x, y] => min x y
    | .absolute, [x] => |x|
    | .sign, [x] => x.sign
    | .identity, [x] => x
    | _, _ => 0
  generate opcode _ _ k := match opcode with
    | .range => k
    | _ => 0
  sweep opcode _ x y := match opcode with
    | .addReduce | .addAccumulate => x + y
    | .multiplyReduce | .multiplyAccumulate => x * y
    | .maximumReduce => max x y
    | .minimumReduce => min x y
    | _ => 0
  neutral opcode := match opcode with
    | .multiplyReduce => 1
    | _ => 0
  toIndex := Int.toNat
  other _ _ _ _ := 0

/-- How an operation walks its operands. -/
inductive BhKind
  | system | elementwise | generator | reduction | accumulate | gather | scatter | other
  deriving DecidableEq, Repr

def bhKind (opcode : BhOpcode) : BhKind :=
  if bhOpcodeIsSystem opcode then .system
  else if bhOpcodeIsElementwise opcode then .elementwise
  else if bhOpcodeIsReduction opcode then .reduction
  else if bhOpcodeIsAccumulate opcode then .accumulate
  else match opcode with
    | .random | .range => .generator
    | .gather => .gather
    | .scatter => .scatter
    | _ => .other

namespace BhView

/-- The location of one element; a constant has none. -/
def locAt (v : BhView) (idx : List ℕ) : Set Loc := {l | v.base = some l.1 ∧ l.2 = v.offset idx}

def locs (v : BhView) : Set Loc := {l | v.base = some l.1 ∧ l.2 ∈ v.offsets}

theorem locAt_subset_locs {v : BhView} {idx : List ℕ} (h : idx ∈ indices v.shape) :
    v.locAt idx ⊆ v.locs := by
  intro l hl
  refine ⟨hl.1, ?_⟩
  rw [hl.2, offsets_eq_map]
  exact List.mem_map_of_mem h

theorem disjoint_locs {u v : BhView} (h : ¬ Overlap u v) : Disjoint u.locs v.locs := by
  rw [Set.disjoint_left]
  intro l hu hv
  refine h ⟨?_, ?_, l.2, hu.2, hv.2⟩
  · rw [hu.1]; rfl
  · rw [hu.1, hv.1]

end BhView

namespace BhInstruction

def kind (i : BhInstruction) : BhKind := bhKind i.opcode

def types (i : BhInstruction) : List (Option BhType) := i.operands.map fun v => v.base.map BhBase.type

def outType (i : BhInstruction) : Option BhType := i.operand0.base.map BhBase.type

/-- The axis of a sweep. -/
def axis (i : BhInstruction) : ℕ := i.constant.int64.toNat

/-- Everything the operands address. -/
def touched (i : BhInstruction) : Set Loc := {l | ∃ v ∈ i.operands, l ∈ v.locs}

/-- What the output addresses; an operation without operands writes nothing. -/
def written (i : BhInstruction) : Set Loc := {l | bhOperands i.opcode ≠ 0 ∧ l ∈ i.operand0.locs}

theorem written_subset_touched (i : BhInstruction) : i.written ⊆ i.touched :=
  fun _ hl => ⟨i.operand0, operand0_mem hl.1, hl.2⟩

end BhInstruction

/-- The output index of a reduction; reducing a vector leaves one element. -/
def reduceIndex (axis : ℕ) (idx : List ℕ) : List ℕ :=
  if idx.length = 1 then [0] else idx.eraseIdx axis

/-- The output shape of a reduction. -/
def reduceShape (axis : ℕ) (shape : List ℕ) : List ℕ :=
  if shape.length = 1 then [1] else shape.eraseIdx axis

/-! ## One index -/

section Step
variable {V : Type} (I : Interp V)

def load (c : BhConstant) (v : BhView) (idx : List ℕ) (m : Mem V) : V :=
  match v.base with
  | none => I.konst c
  | some b => m (b, v.offset idx)

def store (v : BhView) (idx : List ℕ) (x : V) (m : Mem V) : Mem V :=
  match v.base with
  | none => m
  | some b => Function.update m (b, v.offset idx) x

/-- The value at a row-major position, as gather reads it. -/
def loadFlat (c : BhConstant) (v : BhView) (k : ℕ) (m : Mem V) : V :=
  match (indices v.shape)[k]? with
  | none => I.konst c
  | some idx => load I c v idx m

/-- A store at a row-major position, as scatter makes it. -/
def storeFlat (v : BhView) (k : ℕ) (x : V) (m : Mem V) : Mem V :=
  match (indices v.shape)[k]? with
  | none => m
  | some idx => store v idx x m

def contents (c : BhConstant) (v : BhView) (m : Mem V) : List V :=
  (indices v.shape).map fun idx => load I c v idx m

/-- The indices an instruction loops over. -/
def indexSpace (i : BhInstruction) : List (List ℕ) :=
  match i.kind with
  | .system => []
  | .elementwise | .generator | .gather | .other => indices i.operand0.shape
  | .reduction | .accumulate | .scatter => indices i.operand1.shape

/-- What an instruction does at one index. -/
def stepAt (i : BhInstruction) (idx : List ℕ) (m : Mem V) : Mem V :=
  match i.kind with
  | .system => m
  | .elementwise =>
    store i.operand0 idx (I.ewise i.opcode i.types (i.inputs.map fun v => load I i.constant v idx m)) m
  | .generator =>
    store i.operand0 idx
      (I.generate i.opcode i.outType i.constant (flatIndex i.operand0.shape idx)) m
  | .reduction =>
    let o := reduceIndex i.axis idx
    let x := load I i.constant i.operand1 idx m
    -- the first element along the axis is copied, the others are combined
    store i.operand0 o (if idx.getD i.axis 0 = 0 then x
      else I.sweep i.opcode i.outType (load I i.constant i.operand0 o m) x) m
  | .accumulate =>
    let x := load I i.constant i.operand1 idx m
    store i.operand0 idx (if idx.getD i.axis 0 = 0 then x
      else I.sweep i.opcode i.outType
        (load I i.constant i.operand0 (idx.modify i.axis (· - 1)) m) x) m
  | .gather =>
    store i.operand0 idx
      (loadFlat I i.constant i.operand1 (I.toIndex (load I i.constant i.operand2 idx m)) m) m
  | .scatter =>
    storeFlat i.operand0 (I.toIndex (load I i.constant i.operand2 idx m))
      (load I i.constant i.operand1 idx m) m
  | .other =>
    store i.operand0 idx
      (I.other i.opcode i.constant
        (i.inputs.map fun v => (v.shape, contents I i.constant v m)) idx) m

def runInstr (i : BhInstruction) (m : Mem V) : Mem V :=
  (indexSpace i).foldl (fun m idx => stepAt I i idx m) m

/-- One instruction after the other, each over its whole index space. -/
def runSequential (l : List BhInstruction) (m : Mem V) : Mem V :=
  l.foldl (fun m i => runInstr I i m) m

theorem runInstr_system {i : BhInstruction} (h : i.isSystem = true) (m : Mem V) :
    runInstr I i m = m := by
  have hk : i.kind = .system := by
    unfold BhInstruction.kind bhKind
    exact if_pos h
  simp [runInstr, indexSpace, hk]

end Step

/-! ## Footprints -/

/-- The shapes of the operands fit together, as the bridges build them. -/
def BhInstruction.WellFormed (i : BhInstruction) : Prop :=
  match i.kind with
  | .elementwise => ∀ v ∈ i.inputs, v.shape = i.operand0.shape ∨ v.base = none
  | .reduction => i.axis < i.operand1.ndim ∧ i.operand0.shape = reduceShape i.axis i.operand1.shape
  | .accumulate => i.operand0.shape = i.operand1.shape
  | .gather => i.operand2.shape = i.operand0.shape
  | .scatter => i.operand2.shape = i.operand1.shape
  | _ => True

instance (i : BhInstruction) : Decidable i.WellFormed := by
  unfold BhInstruction.WellFormed
  split <;> infer_instance

theorem bhOperands_of_kind {opcode : BhOpcode} (h : bhKind opcode = .reduction ∨
    bhKind opcode = .accumulate ∨ bhKind opcode = .gather ∨ bhKind opcode = .scatter) :
    bhOperands opcode = 3 := by
  revert h
  cases opcode with
  | ext id => exact fun _ => rfl
  | _ => decide

theorem bhOperands_ne_zero_of_kind {opcode : BhOpcode} (h : bhKind opcode ≠ .system) :
    bhOperands opcode ≠ 0 := by
  apply bhOperands_ne_zero_of_not_system
  by_contra hs
  exact h (if_pos (by simpa using hs))

theorem reduceIndex_mem {axis : ℕ} {shape idx : List ℕ} (h : idx ∈ indices shape) :
    reduceIndex axis idx ∈ indices (reduceShape axis shape) := by
  have hlen : idx.length = shape.length := (mem_indices.mp h).length_eq
  unfold reduceIndex reduceShape
  rw [hlen]
  split_ifs with h1
  · exact mem_indices.mpr (List.Forall₂.cons Nat.zero_lt_one List.Forall₂.nil)
  · rw [mem_indices, List.eraseIdx_eq_take_drop_succ, List.eraseIdx_eq_take_drop_succ]
    have hd := mem_indices.mp h
    exact List.rel_append (List.forall₂_take axis hd) (List.forall₂_drop (axis + 1) hd)

theorem pred_mem {axis : ℕ} {shape idx : List ℕ} (h : idx ∈ indices shape) :
    idx.modify axis (· - 1) ∈ indices shape := by
  rw [mem_indices] at h ⊢
  induction h generalizing axis with
  | nil => simp
  | cons hi _ ih =>
    cases axis with
    | zero => exact List.Forall₂.cons (lt_of_le_of_lt (Nat.sub_le _ 1) hi) ‹_›
    | succ axis => exact List.Forall₂.cons hi ih

section Footprints
variable {V : Type} (I : Interp V)

theorem load_congr {c : BhConstant} {v : BhView} {idx : List ℕ} {R : Set Loc} {m m' : Mem V}
    (hR : v.locAt idx ⊆ R) (hm : ∀ l ∈ R, m l = m' l) : load I c v idx m = load I c v idx m' := by
  unfold load
  cases hb : v.base with
  | none => rfl
  | some b => exact hm (b, v.offset idx) (hR ⟨hb, rfl⟩)

theorem store_footprint {v : BhView} {idx : List ℕ} {f : Mem V → V} {R W : Set Loc}
    (hW : v.locAt idx ⊆ W) (hWR : W ⊆ R) (hf : ∀ m m', (∀ l ∈ R, m l = m' l) → f m = f m') :
    Footprint (fun m => store v idx (f m) m) R W := by
  unfold store
  cases hb : v.base with
  | none => exact ⟨fun m l _ => rfl, fun m m' hm l hl => hm l (hWR hl)⟩
  | some b =>
    have hmem : (b, v.offset idx) ∈ W := hW ⟨hb, rfl⟩
    constructor
    · intro m l hl
      apply Function.update_of_ne
      intro he
      exact hl (he ▸ hmem)
    · intro m m' hm l hl
      simp only [Function.update_apply, hf m m' hm]
      rw [hm l (hWR hl)]

theorem loadFlat_congr {c : BhConstant} {v : BhView} {k : ℕ} {R : Set Loc} {m m' : Mem V}
    (hR : ∀ idx ∈ indices v.shape, v.locAt idx ⊆ R) (hm : ∀ l ∈ R, m l = m' l) :
    loadFlat I c v k m = loadFlat I c v k m' := by
  unfold loadFlat
  cases hk : (indices v.shape)[k]? with
  | none => rfl
  | some idx => exact load_congr I (hR idx (List.mem_of_getElem? hk)) hm

theorem storeFlat_footprint {v : BhView} {k : Mem V → ℕ} {f : Mem V → V} {R W : Set Loc}
    (hW : ∀ idx ∈ indices v.shape, v.locAt idx ⊆ W) (hWR : W ⊆ R)
    (hk : ∀ m m', (∀ l ∈ R, m l = m' l) → k m = k m')
    (hf : ∀ m m', (∀ l ∈ R, m l = m' l) → f m = f m') :
    Footprint (fun m => storeFlat v (k m) (f m) m) R W := by
  have hat : ∀ n, Footprint (fun m => storeFlat v n (f m) m) R W := by
    intro n
    unfold storeFlat
    cases hn : (indices v.shape)[n]? with
    | none => exact ⟨fun m l _ => rfl, fun m m' hm l hl => hm l (hWR hl)⟩
    | some idx => exact store_footprint (hW idx (List.mem_of_getElem? hn)) hWR hf
  constructor
  · intro m l hl
    exact (hat (k m)).frame m l hl
  · intro m m' hm l hl
    rw [← hk m m' hm]
    exact (hat (k m)).reads m m' hm l hl

/-- At one index an instruction reads and writes only what its operands address. -/
theorem stepAt_footprint {i : BhInstruction} (hwf : i.WellFormed) {idx : List ℕ}
    (hidx : idx ∈ indexSpace i) : Footprint (stepAt I i idx) i.touched i.written := by
  have hnop : i.kind ≠ .system → bhOperands i.opcode ≠ 0 := bhOperands_ne_zero_of_kind
  have hWR := i.written_subset_touched
  have hout : ∀ idx', bhOperands i.opcode ≠ 0 → idx' ∈ indices i.operand0.shape →
      i.operand0.locAt idx' ⊆ i.written :=
    fun idx' hn h l hl => ⟨hn, BhView.locAt_subset_locs h hl⟩
  have hin : ∀ v idx', v ∈ i.operands → idx' ∈ indices v.shape → v.locAt idx' ⊆ i.touched :=
    fun v idx' hv h l hl => ⟨v, hv, BhView.locAt_subset_locs h hl⟩
  unfold stepAt
  unfold BhInstruction.WellFormed at hwf
  unfold indexSpace at hidx
  cases hk : i.kind with
  | system => exact ⟨fun m l _ => rfl, fun m m' hm l hl => hm l (hWR hl)⟩
  | elementwise =>
    simp only [hk] at hwf hidx ⊢
    refine store_footprint (hout idx (hnop (by simp [hk])) hidx) hWR fun m m' hm => ?_
    refine congrArg _ (List.map_congr_left fun v hv => ?_)
    rcases hwf v hv with hs | hb
    · exact load_congr I (hin v idx (BhInstruction.mem_operands_of_mem_inputs hv) (hs ▸ hidx)) hm
    · simp [load, hb]
  | generator =>
    simp only [hk] at hidx ⊢
    exact store_footprint (hout idx (hnop (by simp [hk])) hidx) hWR fun m m' hm => rfl
  | reduction =>
    simp only [hk] at hwf hidx ⊢
    have h3 : bhOperands i.opcode = 3 := bhOperands_of_kind (Or.inl hk)
    have ho : reduceIndex i.axis idx ∈ indices i.operand0.shape := hwf.2 ▸ reduceIndex_mem hidx
    refine store_footprint (hout _ (by omega) ho) hWR fun m m' hm => ?_
    rw [load_congr I (hin i.operand1 idx (by simp [BhInstruction.operands, h3]) hidx) hm,
      load_congr I (hin i.operand0 _ (by simp [BhInstruction.operands, h3]) ho) hm]
  | accumulate =>
    simp only [hk] at hwf hidx ⊢
    have h3 : bhOperands i.opcode = 3 := bhOperands_of_kind (Or.inr (Or.inl hk))
    have ho : idx ∈ indices i.operand0.shape := hwf ▸ hidx
    refine store_footprint (hout _ (by omega) ho) hWR fun m m' hm => ?_
    rw [load_congr I (hin i.operand1 idx (by simp [BhInstruction.operands, h3]) hidx) hm,
      load_congr I (hin i.operand0 _ (by simp [BhInstruction.operands, h3]) (pred_mem ho)) hm]
  | gather =>
    simp only [hk] at hwf hidx ⊢
    have h3 : bhOperands i.opcode = 3 := bhOperands_of_kind (Or.inr (Or.inr (Or.inl hk)))
    refine store_footprint (hout _ (by omega) hidx) hWR fun m m' hm => ?_
    rw [load_congr I (hin i.operand2 idx (by simp [BhInstruction.operands, h3]) (hwf ▸ hidx)) hm]
    exact loadFlat_congr I (fun idx' h => hin i.operand1 idx' (by simp [BhInstruction.operands, h3]) h) hm
  | scatter =>
    simp only [hk] at hwf hidx ⊢
    have h3 : bhOperands i.opcode = 3 := bhOperands_of_kind (Or.inr (Or.inr (Or.inr hk)))
    have hcongr : ∀ m m' : Mem V, (∀ l ∈ i.touched, m l = m' l) → _ := fun m m' hm =>
      load_congr I (c := i.constant)
        (hin i.operand2 idx (by simp [BhInstruction.operands, h3]) (hwf ▸ hidx)) hm
    refine storeFlat_footprint (fun idx' h => hout idx' (by omega) h) hWR
      (fun m m' hm => by rw [hcongr m m' hm]) fun m m' hm => ?_
    exact load_congr I (hin i.operand1 idx (by simp [BhInstruction.operands, h3]) hidx) hm
  | other =>
    simp only [hk] at hidx ⊢
    refine store_footprint (hout idx (hnop (by simp [hk])) hidx) hWR fun m m' hm => ?_
    refine congrArg (fun xs => I.other i.opcode i.constant xs idx) (List.map_congr_left fun v hv => ?_)
    refine congrArg (v.shape, ·) (List.map_congr_left fun idx' h => ?_)
    exact load_congr I (hin v idx' (BhInstruction.mem_operands_of_mem_inputs hv) h) hm

theorem runInstr_footprint {i : BhInstruction} (hwf : i.WellFormed) :
    Footprint (runInstr I i) i.touched i.written :=
  Footprint.foldl (indexSpace i) i.written_subset_touched fun _ h => stepAt_footprint I hwf h

end Footprints
end Bohrium
