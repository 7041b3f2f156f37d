import Bohrium.Cpu.Operands
import Bohrium.Semantics.Whole
import Mathlib.Algebra.Field.Rat
import Mathlib.Algebra.Ring.Defs
import Mathlib.Data.List.FinRange

/-! # Lowering to three-address code

`instrs_to_tacs` (`ve/cpu/utils_mapping_tacs.cpp`) and `tac_transform` (`ve/cpu/utils.cpp`). A three-address
code names its operands by their indices in the symbol table; it is given a meaning by looking them up in
the table as it is at the end, when the engine runs the program. -/
namespace Bohrium.Cpu
open Engine Strided Intern
set_option autoImplicit false

/-! ## The code -/

/-- `OPERATION`; `unset` is the operation of a code that was never written. -/
inductive Operation
  | unset | map | zip | reduceComplete | reducePartial | scan | index | generate | system | extension | noop
  deriving DecidableEq, Repr

/-- `tac_t`. The operator of a sweep is the elementwise one, as in `OPERATOR`. -/
structure Tac where
  op : Operation
  oper : BhOpcode
  out : ℕ
  in1 : ℕ
  in2 : ℕ
  deriving DecidableEq, Repr

/-- The switch of `instrs_to_tacs`: operation, operator and number of inputs; `none` is "Unsupported
instruction". -/
def tacOf : BhOpcode → Option (Operation × BhOpcode × ℕ)
  | .absolute => some (.map, .absolute, 1)
  | .arccos => some (.map, .arccos, 1)
  | .arccosh => some (.map, .arccosh, 1)
  | .arcsin => some (.map, .arcsin, 1)
  | .arcsinh => some (.map, .arcsinh, 1)
  | .arctan => some (.map, .arctan, 1)
  | .arctanh => some (.map, .arctanh, 1)
  | .ceil => some (.map, .ceil, 1)
  | .cos => some (.map, .cos, 1)
  | .cosh => some (.map, .cosh, 1)
  | .exp => some (.map, .exp, 1)
  | .exp2 => some (.map, .exp2, 1)
  | .expm1 => some (.map, .expm1, 1)
  | .floor => some (.map, .floor, 1)
  | .identity => some (.map, .identity, 1)
  | .imag => some (.map, .imag, 1)
  | .invert => some (.map, .invert, 1)
  | .isinf => some (.map, .isinf, 1)
  | .isnan => some (.map, .isnan, 1)
  | .log => some (.map, .log, 1)
  | .log10 => some (.map, .log10, 1)
  | .log1p => some (.map, .log1p, 1)
  | .log2 => some (.map, .log2, 1)
  | .logicalNot => some (.map, .logicalNot, 1)
  | .real => some (.map, .real, 1)
  | .rint => some (.map, .rint, 1)
  | .sign => some (.map, .sign, 1)
  | .sin => some (.map, .sin, 1)
  | .sinh => some (.map, .sinh, 1)
  | .sqrt => some (.map, .sqrt, 1)
  | .tan => some (.map, .tan, 1)
  | .tanh => some (.map, .tanh, 1)
  | .trunc => some (.map, .trunc, 1)
  | .add => some (.zip, .add, 2)
  | .arctan2 => some (.zip, .arctan2, 2)
  | .bitwiseAnd => some (.zip, .bitwiseAnd, 2)
  | .bitwiseOr => some (.zip, .bitwiseOr, 2)
  | .bitwiseXor => some (.zip, .bitwiseXor, 2)
  | .divide => some (.zip, .divide, 2)
  | .equal => some (.zip, .equal, 2)
  | .greater => some (.zip, .greater, 2)
  | .greaterEqual => some (.zip, .greaterEqual, 2)
  | .leftShift => some (.zip, .leftShift, 2)
  | .less => some (.zip, .less, 2)
  | .lessEqual => some (.zip, .lessEqual, 2)
  | .logicalAnd => some (.zip, .logicalAnd, 2)
  | .logicalOr => some (.zip, .logicalOr, 2)
  | .logicalXor => some (.zip, .logicalXor, 2)
  | .maximum => some (.zip, .maximum, 2)
  | .minimum => some (.zip, .minimum, 2)
  | .mod => some (.zip, .mod, 2)
  | .multiply => some (.zip, .multiply, 2)
  | .notEqual => some (.zip, .notEqual, 2)
  | .power => some (.zip, .power, 2)
  | .rightShift => some (.zip, .rightShift, 2)
  | .subtract => some (.zip, .subtract, 2)
  | .addReduce => some (.reducePartial, .add, 2)
  | .bitwiseAndReduce => some (.reducePartial, .bitwiseAnd, 2)
  | .bitwiseOrReduce => some (.reducePartial, .bitwiseOr, 2)
  | .bitwiseXorReduce => some (.reducePartial, .bitwiseXor, 2)
  | .logicalAndReduce => some (.reducePartial, .logicalAnd, 2)
  | .logicalOrReduce => some (.reducePartial, .logicalOr, 2)
  | .logicalXorReduce => some (.reducePartial, .logicalXor, 2)
  | .maximumReduce => some (.reducePartial, .maximum, 2)
  | .minimumReduce => some (.reducePartial, .minimum, 2)
  | .multiplyReduce => some (.reducePartial, .multiply, 2)
  | .addAccumulate => some (.scan, .add, 2)
  | .multiplyAccumulate => some (.scan, .multiply, 2)
  | .random => some (.generate, .random, 2)
  | .range => some (.generate, .range, 0)
  | .gather => some (.index, .gather, 2)
  | .scatter => some (.index, .scatter, 2)
  | .discard => some (.system, .discard, 0)
  | .free => some (.system, .free, 0)
  | .none => some (.system, .none, 0)
  | .sync => some (.system, .sync, 0)
  | .ext id => some (.extension, .ext id, 2)
  | .matmul => none

/-! ## Scalars -/

/-- The double of `get_scalar`; `none` is the exception. A large integer is rounded there, but never to one
of the two numbers it is compared with, so it is left exact here. -/
def Scalar.double : Scalar → Option Fp
  | ⟨.float32, x⟩ | ⟨.float64, x⟩ => some x
  | ⟨.complex64, _⟩ | ⟨.complex128, _⟩ => none
  | ⟨.bool, x⟩ => some (.fin (number .bool x))
  | ⟨.int8, x⟩ => some (.fin (number .int8 x))
  | ⟨.int16, x⟩ => some (.fin (number .int16 x))
  | ⟨.int32, x⟩ => some (.fin (number .int32 x))
  | ⟨.int64, x⟩ => some (.fin (number .int64 x))
  | ⟨.uint8, x⟩ => some (.fin (number .uint8 x))
  | ⟨.uint16, x⟩ => some (.fin (number .uint16 x))
  | ⟨.uint32, x⟩ => some (.fin (number .uint32 x))
  | ⟨.uint64, x⟩ => some (.fin (number .uint64 x))

/-- The value `(T)0`. -/
def zeroOf : (type : BhType) → Value type
  | .float32 | .float64 => Fp.fin 0
  | .complex64 | .complex128 => (Fp.fin 0, Fp.fin 0)
  | .bool | .int8 | .uint8 => (0 : BitVec 8)
  | .int16 | .uint16 => (0 : BitVec 16)
  | .int32 | .uint32 => (0 : BitVec 32)
  | .int64 | .uint64 => (0 : BitVec 64)

def Constant.clear : Constant → Part → Constant
  | .typed s, .value => .typed ⟨s.type, zeroOf s.type⟩
  | .r123 _ key, .start => .r123 (zeroOf .uint64) key
  | .r123 start _, .key => .r123 start (zeroOf .uint64)
  | c, _ => c

section Lower
variable {n : ℕ}

def getScalar (prog : Fin n → Instr) (t : Table n) (idx : ℕ) : Option Fp :=
  (scalar prog t.table (t.table idx)).bind Scalar.double

/-- `set_scalar(symbol_table[idx], 0)`: the constant of an instruction is overwritten. -/
def clearScalar (prog : Fin n → Instr) (t : Table n) (idx : ℕ) : Fin n → Instr :=
  match (t.table idx).data with
  | .base _ => prog
  | .entry e =>
    match (t.table e).constData with
    | none => prog
    | some (i, part) => Function.update prog i { prog i with constant := (prog i).constant.clear part }

/-- The label `transform_identity`. -/
def transformIdentity (tac : Tac) : Tac := if tac.out = tac.in1 then { tac with op := .noop } else tac

def toIdentity (tac : Tac) : Tac := transformIdentity { tac with op := .map, oper := .identity, in2 := 0 }

/-- `tac_transform`; `none` is the exception of `get_scalar`. -/
def tacTransform (prog : Fin n → Instr) (t : Table n) (tac : Tac) : Option ((Fin n → Instr) × Tac) :=
  match tac.op with
  | .reduceComplete | .scan => some (prog, if (t.table tac.in1).layout = .scalar then toIdentity tac else tac)
  | .reducePartial => some (prog,
      if (t.table tac.in1).layout = .scalar then toIdentity tac
      else if (t.table tac.out).layout = .scalar then { tac with op := .reduceComplete }
      else tac)
  | .zip =>
    match tac.oper with
    | .add =>
      if (t.table tac.in2).layout = .scalarConst then
        (getScalar prog t tac.in2).map fun x => (prog, if x.eq (.fin 0) then toIdentity tac else tac)
      else some (prog, tac)
    | .multiply =>
      if (t.table tac.in2).layout = .scalarConst then
        (getScalar prog t tac.in2).map fun x =>
          if x.eq (.fin 0) then
            (clearScalar prog t tac.in2, { tac with op := .map, oper := .identity, in1 := tac.in2, in2 := 0 })
          else (prog, if x.eq (.fin 1) then toIdentity tac else tac)
      else some (prog, tac)
    | .divide =>
      if (t.table tac.in2).layout = .scalarConst then
        (getScalar prog t tac.in2).map fun x => (prog, if x.eq (.fin 1) then toIdentity tac else tac)
      else some (prog, tac)
    | _ => some (prog, tac)
  | .map => some (prog, if tac.oper = .identity then transformIdentity tac else tac)
  | _ => some (prog, tac)

/-- `map_operand` of an input, where the operation has one. -/
def mapInput (prog : Fin n → Instr) (t : Table n) (used : Bool) (c : Operand n) :
    Option ((Fin n → Instr) × Table n × ℕ) :=
  if used then mapOperand prog t c else some (prog, t, 0)

/-- One turn of the loop of `instrs_to_tacs`. -/
def lower (prog : Fin n → Instr) (t : Table n) (i : Fin n) : Option ((Fin n → Instr) × Table n × Tac) := do
  let opcode := (prog i).opcode
  let (prog, t, out) ← mapInput prog t (opcode ≠ .none) (i, 0)
  match tacOf opcode with
  | none => return (prog, t, ⟨.unset, .none, 0, 0, 0⟩)
  | some (op, oper, inputs) =>
    let (prog, t, in1) ← mapInput prog t (1 ≤ inputs) (i, 1)
    let (prog, t, in2) ← mapInput prog t (2 ≤ inputs) (i, 2)
    let (prog, tac) ← tacTransform prog t ⟨op, oper, out, in1, in2⟩
    return (prog, t, tac)

def lowerAll (prog : Fin n → Instr) (t : Table n) : List (Fin n) → Option ((Fin n → Instr) × Table n × List Tac)
  | [] => some (prog, t, [])
  | i :: is => do
    let (prog, t, tac) ← lower prog t i
    let (prog, t, tacs) ← lowerAll prog t is
    return (prog, t, tac :: tacs)

/-- `instrs_to_tacs`, with a table that is empty. -/
def instrsToTacs (prog : Fin n → Instr) (table : ℕ → Entry n) : Option ((Fin n → Instr) × Table n × List Tac) :=
  lowerAll prog ⟨table, 0⟩ (List.finRange n)

end Lower

/-! ## Meaning -/

/-- The operand slot of a constant, or one that is not used. -/
def blank : BhView := ⟨none, 0, []⟩

def noConstant : BhConstant := .int .int64 0

def Fp.rat : Fp → Option ℚ
  | .fin x => some x
  | _ => none

def Scalar.bh : Scalar → BhConstant
  | ⟨.float32, x⟩ => .float .float32 (Fp.rat x)
  | ⟨.float64, x⟩ => .float .float64 (Fp.rat x)
  | ⟨.complex64, x⟩ => .complex .complex64 (Fp.rat x.1) (Fp.rat x.2)
  | ⟨.complex128, x⟩ => .complex .complex128 (Fp.rat x.1) (Fp.rat x.2)
  | ⟨.bool, x⟩ => .int .bool (number .bool x)
  | ⟨.int8, x⟩ => .int .int8 (number .int8 x)
  | ⟨.int16, x⟩ => .int .int16 (number .int16 x)
  | ⟨.int32, x⟩ => .int .int32 (number .int32 x)
  | ⟨.int64, x⟩ => .int .int64 (number .int64 x)
  | ⟨.uint8, x⟩ => .int .uint8 (number .uint8 x)
  | ⟨.uint16, x⟩ => .int .uint16 (number .uint16 x)
  | ⟨.uint32, x⟩ => .int .uint32 (number .uint32 x)
  | ⟨.uint64, x⟩ => .int .uint64 (number .uint64 x)

/-- The constant that the inputs of an operation carry; the two of `BH_RANDOM` are one `BH_R123`. -/
def joinConstants (opcode : BhOpcode) (in1 in2 : Option Scalar) : BhConstant :=
  match opcode, in1, in2 with
  | .random, some ⟨.uint64, start⟩, some ⟨.uint64, key⟩ => .r123 (BitVec.toNat start) (BitVec.toNat key)
  | _, _, some s => s.bh
  | _, some s, none => s.bh
  | _, none, none => noConstant

def Slot.view (s : Slot) : BhView :=
  match s.base with
  | none => blank
  | some b => ⟨some b, s.start, s.dims⟩

section Meaning
variable {n : ℕ} {V : Type} (I : Interp V)

/-- The operand, where the operation has one. -/
def inputView (prog : Fin n → Instr) (used : Bool) (c : Operand n) : BhView :=
  if used then (slot prog c).view else blank

def inputConst (prog : Fin n → Instr) (used : Bool) (c : Operand n) : Option Scalar :=
  if used && (slot prog c).base.isNone then constOf prog c else none

/-- The number of inputs: the operands after the first, and the second part of a `BH_R123`. -/
def inputs (opcode : BhOpcode) : ℕ := if opcode = .random then 2 else bhOperands opcode - 1

/-- An instruction of the list, with what it uses of its operands and its constant. -/
def instruction (prog : Fin n → Instr) (i : Fin n) : BhInstruction where
  opcode := (prog i).opcode
  operand0 := inputView prog ((prog i).opcode ≠ .none) (i, 0)
  operand1 := inputView prog (1 ≤ inputs (prog i).opcode) (i, 1)
  operand2 := inputView prog (2 ≤ inputs (prog i).opcode) (i, 2)
  constant := joinConstants (prog i).opcode (inputConst prog (1 ≤ inputs (prog i).opcode) (i, 1))
    (inputConst prog (2 ≤ inputs (prog i).opcode) (i, 2))

/-- A reduction over the indices `fibre` of each output element. -/
def reduceStores (i : BhInstruction) (fibre : List ℕ → List (List ℕ)) (m : Mem V) : List (Loc × V) :=
  storesTo i.operand0 fun o =>
    I.reduce i.opcode i.outType ((fibre o).map fun idx => load I i.constant i.operand1 idx m)

/-- The input indices that go into an output element of a reduction over one axis. -/
def axisFibre (i : BhInstruction) (o : List ℕ) : List (List ℕ) :=
  (indices i.operand1.shape).filter fun idx => reduceIndex i.axis idx == o

/-- What an instruction does to memory. -/
def runBytecode (i : BhInstruction) (m : Mem V) : Mem V :=
  match i.kind with
  | .reduction => applyStores (reduceStores I i (axisFibre i) m) m
  | _ => runWhole I i m

/-- `symbol_table[idx]` as a view; the index zero is no operand. -/
def viewAt (prog : Fin n → Instr) (t : Table n) (idx : ℕ) : BhView :=
  if idx = 0 then blank
  else match (t.table idx).base with
    | none => blank
    | some b => ⟨some b, (t.table idx).start, (List.range (t.table idx).ndim).map fun j =>
        ⟨(read prog (t.table idx).shape j).toNat, read prog (t.table idx).stride j⟩⟩

def constAt (prog : Fin n → Instr) (t : Table n) (idx : ℕ) : Option Scalar :=
  if idx = 0 then none else scalar prog t.table (t.table idx)

/-- The operation and its operator, as one opcode. -/
def opcodeOf : Operation → BhOpcode → BhOpcode
  | .reduceComplete, oper | .reducePartial, oper =>
    match oper with
    | .add => .addReduce
    | .multiply => .multiplyReduce
    | .minimum => .minimumReduce
    | .maximum => .maximumReduce
    | .logicalAnd => .logicalAndReduce
    | .logicalOr => .logicalOrReduce
    | .logicalXor => .logicalXorReduce
    | .bitwiseAnd => .bitwiseAndReduce
    | .bitwiseOr => .bitwiseOrReduce
    | .bitwiseXor => .bitwiseXorReduce
    | oper => oper
  | .scan, oper =>
    match oper with
    | .add => .addAccumulate
    | .multiply => .multiplyAccumulate
    | oper => oper
  | _, oper => oper

/-- The operands of a code, looked up in the table. -/
def lookUp (prog : Fin n → Instr) (t : Table n) (tac : Tac) : BhInstruction where
  opcode := opcodeOf tac.op tac.oper
  operand0 := viewAt prog t tac.out
  operand1 := viewAt prog t tac.in1
  operand2 := viewAt prog t tac.in2
  constant := joinConstants (opcodeOf tac.op tac.oper) (constAt prog t tac.in1) (constAt prog t tac.in2)

/-- What a code does to memory. A complete reduction reads every element of its input. -/
def runTac (prog : Fin n → Instr) (t : Table n) (tac : Tac) (m : Mem V) : Mem V :=
  match tac.op with
  | .unset | .system | .noop => m
  | .reducePartial => applyStores (reduceStores I (lookUp prog t tac) (axisFibre (lookUp prog t tac)) m) m
  | .reduceComplete =>
    applyStores (reduceStores I (lookUp prog t tac) (fun _ => indices (lookUp prog t tac).operand1.shape) m) m
  | _ => runWhole I (lookUp prog t tac) m

end Meaning

/-- Exact ring arithmetic, as far as the rewriting of codes relies on it. -/
structure Arithmetic {V : Type} [CommRing V] (I : Interp V) : Prop where
  identity : ∀ type x, I.ewise .identity [some type, some type] [x] = x
  constant : ∀ s : Scalar, I.ewise .identity [some s.type, none] [I.konst s.bh] = I.konst s.bh
  add : ∀ types x y, I.ewise .add types [x, y] = x + y
  multiply : ∀ types x y, I.ewise .multiply types [x, y] = x * y
  divide_one : ∀ types x, I.ewise .divide types [x, 1] = x
  zero : ∀ s : Scalar, s.double = some (.fin 0) → I.konst s.bh = 0
  one : ∀ s : Scalar, s.double = some (.fin 1) → I.konst s.bh = 1

/-- Rational numbers, for the operations that have a rational meaning. -/
def ratInterp : Interp ℚ where
  konst c := match c with
    | .int _ x => x
    | .float _ x => x.getD 0
    | .complex _ x _ => x.getD 0
    | .r123 start _ => start
  ewise opcode _ xs :=
    match opcode, xs with
    | .add, [x, y] => x + y
    | .subtract, [x, y] => x - y
    | .multiply, [x, y] => x * y
    | .divide, [x, y] => x / y
    | .identity, [x] => x
    | _, _ => 0
  generate _ _ _ k := k
  sweep opcode _ x y := match opcode with
    | .multiplyReduce | .multiplyAccumulate => x * y
    | _ => x + y
  neutral opcode := match opcode with
    | .multiplyReduce => 1
    | _ => 0
  toIndex x := x.num.toNat
  other _ _ _ _ := 0

theorem konst_ratInterp {s : Scalar} {q : ℚ} (h : s.double = some (.fin q)) : ratInterp.konst s.bh = q := by
  obtain ⟨type, x⟩ := s
  cases type with
  | float32 | float64 =>
    obtain rfl : x = Fp.fin q := Option.some.inj h
    rfl
  | complex64 | complex128 => cases h
  | _ => exact Fp.fin.inj (Option.some.inj h)

theorem arithmetic_ratInterp : Arithmetic ratInterp where
  identity _ _ := rfl
  constant _ := rfl
  add _ _ _ := rfl
  multiply _ _ _ := rfl
  divide_one _ x := div_one x
  zero _ h := konst_ratInterp h
  one _ h := konst_ratInterp h

/-- An instruction as the bridges build it: an array is written; the operands of an arithmetic operation
have one type; a sweep has an array of the output's type, a constant axis, and shapes that fit. -/
structure TypeCorrect {n : ℕ} (prog : Fin n → Instr) (i : Fin n) : Prop where
  supported : (tacOf (prog i).opcode).isSome = true ∧ ∀ id, (prog i).opcode ≠ .ext id
  output : (prog i).opcode ≠ .none → (slot prog (i, 0)).base.isSome = true
  random : (prog i).opcode = .random → (slot prog (i, 1)).base = none ∧ (slot prog (i, 2)).base = none ∧
    ∃ start key, (prog i).constant = .r123 start key
  arithmetic : (prog i).opcode = .add ∨ (prog i).opcode = .multiply ∨ (prog i).opcode = .divide →
    (∀ k, (slot prog (i, k)).base.elim (constType (prog i).constant) BhBase.type =
      (slot prog (i, 0)).base.elim (constType (prog i).constant) BhBase.type) ∧
    ∀ k, (slot prog (i, k)).base = none → ∃ s, (prog i).constant = .typed s
  sweep : bhOpcodeIsSweep (prog i).opcode = true → (slot prog (i, 2)).base = none ∧
    (slot prog (i, 1)).base.map BhBase.type = (slot prog (i, 0)).base.map BhBase.type ∧ (instruction prog i).WellFormed

/-! ## Looking up operands -/

section LookUp
variable {n : ℕ} {prog prog' : Fin n → Instr} {t : Table n} {occ : List (Operand n)} {c : Operand n} {idx : ℕ}

/-- The index stands for the operand. -/
def Refers (prog : Fin n → Instr) (occ : List (Operand n)) (idx : ℕ) (c : Operand n) : Prop :=
  ∃ k, idx = k + 1 ∧ Holds (same prog) occ (c, k)

theorem Tabulates.entry_of_refers (h : Tabulates prog prog' t occ) (hidx : Refers prog occ idx c) :
    idx ≠ 0 ∧ ∃ d, t.table idx = entryOf prog idx d ∧ (d = c ∨ same prog d c = true) := by
  obtain ⟨k, rfl, d, hd, hsame⟩ := hidx
  exact ⟨Nat.succ_ne_zero k, d, h.entry k d hd, hsame⟩

theorem view_congr {s s' : Slot} (h : viewOf s = viewOf s') : s.view = s'.view := by
  have hdims := dims_congr h
  simp only [viewOf, Prod.mk.injEq] at h
  unfold Slot.view
  rw [h.1, h.2.1, hdims]

theorem viewAt_of_refers (h : Tabulates prog prog' t occ) (hidx : Refers prog occ idx c) :
    viewAt prog' t idx = (slot prog c).view := by
  obtain ⟨hne, d, hentry, hd⟩ := h.entry_of_refers hidx
  unfold viewAt
  rw [if_neg hne, hentry]
  obtain ⟨b, hb, _, hview⟩ | ⟨hb, hc, _⟩ := stands_cases hd
  · rw [← view_congr hview]
    simp only [entryOf, hb, Slot.view, read, h.frame.array d b hb, Slot.array, Slot.dims]
  · simp only [entryOf, hb, Slot.view, hc]

theorem constAt_of_refers (h : Tabulates prog prog' t occ) (hidx : Refers prog occ idx c) :
    constAt prog' t idx = inputConst prog true c := by
  obtain ⟨hne, d, hentry, hd⟩ := h.entry_of_refers hidx
  unfold constAt inputConst
  rw [if_neg hne, hentry]
  obtain ⟨b, hb, hc, _⟩ | ⟨hb, hc, hconst⟩ := stands_cases hd
  · simp only [entryOf, hb, hc, scalar, Option.isNone_some, Bool.and_false, Bool.false_eq_true, if_false]
  · rw [scalar_entryOf h.frame hentry hb, hconst, hc]
    rfl

theorem layout_of_refers (h : Tabulates prog prog' t occ) (hidx : Refers prog occ idx c) :
    (t.table idx).layout = if (slot prog c).base = none then .scalarConst else determineLayout (slot prog c).dims := by
  obtain ⟨hne, d, hentry, hd⟩ := h.entry_of_refers hidx
  rw [hentry]
  obtain ⟨b, hb, hc, hview⟩ | ⟨hb, hc, _⟩ := stands_cases hd
  · simp only [entryOf, hb, hc, dims_congr hview, reduceCtorEq, if_false]
  · simp only [entryOf, hb, hc, if_true]

/-- The index of an input, where the operation has one. -/
def Mapped (prog : Fin n → Instr) (occ : List (Operand n)) (used : Bool) (idx : ℕ) (c : Operand n) : Prop :=
  if used then Refers prog occ idx c else idx = 0

theorem viewAt_of_mapped {used : Bool} (h : Tabulates prog prog' t occ) (hidx : Mapped prog occ used idx c) :
    viewAt prog' t idx = inputView prog used c := by
  unfold Mapped at hidx
  cases used with
  | false =>
    obtain rfl : idx = 0 := hidx
    rfl
  | true => exact viewAt_of_refers h hidx

theorem constAt_of_mapped {used : Bool} (h : Tabulates prog prog' t occ) (hidx : Mapped prog occ used idx c) :
    constAt prog' t idx = inputConst prog used c := by
  unfold Mapped at hidx
  cases used with
  | false =>
    obtain rfl : idx = 0 := hidx
    rfl
  | true => exact constAt_of_refers h hidx

/-- The table grew: what an index stood for it still stands for. -/
def Grows (prog : Fin n → Instr) (occ occ' : List (Operand n)) : Prop :=
  ∀ p, Holds (same prog) occ p → Holds (same prog) occ' p

theorem Mapped.grows {occ' : List (Operand n)} {used : Bool} (h : Mapped prog occ used idx c)
    (hgrows : Grows prog occ occ') : Mapped prog occ' used idx c := by
  unfold Mapped at h ⊢
  split
  · rw [if_pos ‹_›] at h
    obtain ⟨k, hk, hholds⟩ := h
    exact ⟨k, hk, hgrows _ hholds⟩
  · rwa [if_neg ‹_›] at h

theorem mapInput_spec {used : Bool} (h : Tabulates prog prog' t occ) {prog'' : Fin n → Instr} {t' : Table n}
    (hmap : mapInput prog' t used c = some (prog'', t', idx)) :
    ∃ occ', Tabulates prog prog'' t' occ' ∧ Grows prog occ occ' ∧ Mapped prog occ' used idx c := by
  unfold mapInput at hmap
  cases used with
  | false =>
    obtain ⟨rfl, rfl, rfl⟩ : prog' = prog'' ∧ t = t' ∧ 0 = idx := by simpa using hmap
    exact ⟨occ, h, fun _ hp => hp, rfl⟩
  | true =>
    obtain ⟨htab, rfl⟩ := mapOperand_spec h hmap
    exact ⟨_, htab, fun _ hp => hp.intern c, _, rfl, holds_intern occ c⟩

/-- `map_operand` returns, but for a `BH_R123` as the output. -/
theorem mapInput_isSome (t : Table n) (used : Bool) (c : Operand n) (h : Frame prog prog')
    (hc : used = true → c.2 = 0 → (slot prog c).base.isSome = true) :
    ∃ r, mapInput prog' t used c = some r := by
  unfold mapInput
  cases used with
  | false => exact ⟨_, rfl⟩
  | true =>
    rw [if_pos rfl]
    have hcand : (candidate prog' (t.nsymbols + 1) c).isSome = true := by
      unfold candidate
      cases hb : (slot prog' c).base with
      | some b => rfl
      | none =>
        have h0 : c.2 ≠ 0 := by
          intro h0
          have := hc rfl h0
          rw [← h.base, hb] at this
          cases this
        have hpart : ∀ k : Fin 3, k ≠ 0 → (constPart (prog' c.1).constant k).isSome = true := by
          intro k hk
          unfold constPart
          cases (prog' c.1).constant with
          | typed _ => rfl
          | r123 _ _ =>
            by_cases h1 : k = 1
            · simp [h1]
            · have h2 : k = 2 := by omega
              simp [h2]
        simpa using hpart c.2 h0
    obtain ⟨r, hr⟩ := Option.isSome_iff_exists.mp hcand
    unfold mapOperand
    rw [hr]
    exact ⟨_, rfl⟩

end LookUp

/-! ## The codes before they are transformed -/

section Plain
variable {n : ℕ} {prog prog' : Fin n → Instr} {t : Table n} {occ : List (Operand n)} {i : Fin n}
  {op : Operation} {oper opcode : BhOpcode} {k out in1 in2 : ℕ} {V : Type}

theorem runBytecode_of_ne (I : Interp V) {j : BhInstruction} (h : j.kind ≠ .reduction) (m : Mem V) :
    runBytecode I j m = runWhole I j m := by
  unfold runBytecode
  split
  · exact absurd ‹_› h
  · rfl

theorem runBytecode_reduction (I : Interp V) {j : BhInstruction} (h : j.kind = .reduction) (m : Mem V) :
    runBytecode I j m = applyStores (reduceStores I j (axisFibre j) m) m := by
  unfold runBytecode
  rw [h]

theorem isSystem_of_kind {j : BhInstruction} (h : j.kind = .system) : j.isSystem = true := by
  by_contra hs
  revert h
  change bhKind j.opcode = .system → False
  unfold bhKind
  rw [if_neg (show ¬bhOpcodeIsSystem j.opcode = true from hs)]
  split_ifs
  · exact id
  · exact id
  · exact id
  · split <;> exact BhKind.noConfusion

theorem tacOf_spec (h : tacOf opcode = some (op, oper, k)) : k = inputs opcode ∧ opcodeOf op oper = opcode := by
  cases opcode <;> cases h <;> exact ⟨rfl, rfl⟩

theorem tacOf_kind (h : tacOf opcode = some (op, oper, k)) :
    (op = .reducePartial ↔ bhKind opcode = .reduction) ∧ (op = .scan ↔ bhKind opcode = .accumulate) ∧
      (op = .system ↔ bhKind opcode = .system) ∧ op ≠ .unset ∧ op ≠ .noop ∧ op ≠ .reduceComplete := by
  cases opcode <;> cases h <;>
    simp [bhKind, bhOpcodeIsSystem, bhOpcodeIsElementwise, bhOpcodeIsReduction, bhOpcodeIsAccumulate]

/-- The indices of the operands of an instruction. -/
structure Indices (prog : Fin n → Instr) (occ : List (Operand n)) (i : Fin n) (tac : Tac) : Prop where
  code : tacOf (prog i).opcode = some (tac.op, tac.oper, inputs (prog i).opcode)
  out : Mapped prog occ ((prog i).opcode ≠ .none) tac.out (i, 0)
  in1 : Mapped prog occ (1 ≤ inputs (prog i).opcode) tac.in1 (i, 1)
  in2 : Mapped prog occ (2 ≤ inputs (prog i).opcode) tac.in2 (i, 2)

theorem lookUp_eq {tac : Tac} (h : Tabulates prog prog' t occ) (hidx : Indices prog occ i tac) :
    lookUp prog' t tac = instruction prog i := by
  unfold lookUp instruction
  rw [viewAt_of_mapped h hidx.out, viewAt_of_mapped h hidx.in1, viewAt_of_mapped h hidx.in2,
    constAt_of_mapped h hidx.in1, constAt_of_mapped h hidx.in2, (tacOf_spec hidx.code).2]

theorem runTac_plain (I : Interp V) {tac : Tac} (h : Tabulates prog prog' t occ) (hidx : Indices prog occ i tac)
    (m : Mem V) : runTac I prog' t tac m = runBytecode I (instruction prog i) m := by
  obtain ⟨hred, -, hsys, hunset, hnoop, hcomplete⟩ := tacOf_kind hidx.code
  change (_ ↔ (instruction prog i).kind = _) at hred
  change (_ ↔ (instruction prog i).kind = _) at hsys
  unfold runTac
  rw [lookUp_eq h hidx]
  split
  · exact absurd ‹_› hunset
  · have hk := hsys.mp ‹_›
    have hne : (instruction prog i).kind ≠ .reduction := by
      rw [hk]
      exact BhKind.noConfusion
    rw [runBytecode_of_ne I hne, runWhole_system I (isSystem_of_kind hk)]
  · exact absurd ‹_› hnoop
  · rw [runBytecode_reduction I (hred.mp ‹_›)]
  · exact absurd ‹_› hcomplete
  · rw [runBytecode_of_ne]
    intro hk
    exact absurd (hred.mpr hk) ‹_›

end Plain

/-! ## One transformation -/

theorem Fp.eq_of_eq {x y : Fp} (h : x.eq y = true) : x = y := by
  cases x with
  | nan => cases h
  | inf _ => exact eq_of_beq h
  | fin _ => exact eq_of_beq h

section Transform
variable {n : ℕ} {prog prog' : Fin n → Instr} {t : Table n} {tac tac' : Tac}

/-- What `tac_transform` may do. -/
theorem tacTransform_cases (h : tacTransform prog t tac = some (prog', tac')) :
    (prog' = prog ∧ tac' = tac) ∨
    (prog' = prog ∧ tac' = toIdentity tac ∧ (t.table tac.in1).layout = .scalar ∧
      (tac.op = .reduceComplete ∨ tac.op = .scan ∨ tac.op = .reducePartial)) ∨
    (prog' = prog ∧ tac' = { tac with op := .reduceComplete } ∧ tac.op = .reducePartial ∧
      (t.table tac.out).layout = .scalar) ∨
    (prog' = prog ∧ tac' = toIdentity tac ∧ tac.op = .zip ∧ (t.table tac.in2).layout = .scalarConst ∧
      ((tac.oper = .add ∧ getScalar prog t tac.in2 = some (.fin 0)) ∨
        ((tac.oper = .multiply ∨ tac.oper = .divide) ∧ getScalar prog t tac.in2 = some (.fin 1)))) ∨
    (prog' = clearScalar prog t tac.in2 ∧ tac' = { tac with op := .map, oper := .identity, in1 := tac.in2, in2 := 0 } ∧
      tac.op = .zip ∧ tac.oper = .multiply ∧ (t.table tac.in2).layout = .scalarConst ∧
      getScalar prog t tac.in2 = some (.fin 0)) ∨
    (prog' = prog ∧ tac' = transformIdentity tac ∧ tac.op = .map ∧ tac.oper = .identity) := by
  unfold tacTransform at h
  split at h
  case h_1 | h_2 =>
    rename_i hop
    obtain ⟨rfl, rfl⟩ := Prod.mk.inj (Option.some.inj h)
    split
    · simp_all
    · simp_all
  case h_3 =>
    rename_i hop
    obtain ⟨rfl, rfl⟩ := Prod.mk.inj (Option.some.inj h)
    split
    · simp_all
    · split
      · simp_all
      · simp_all
  case h_4 =>
    rename_i hop
    split at h
    case h_1 | h_3 =>
      rename_i hoper
      split at h
      · rename_i hconst
        obtain ⟨x, hx, heq⟩ := Option.map_eq_some_iff.mp h
        obtain ⟨rfl, rfl⟩ := Prod.mk.inj heq
        split
        · obtain rfl := Fp.eq_of_eq ‹_›
          simp_all
        · simp_all
      · simp_all
    case h_2 =>
      rename_i hoper
      split at h
      · rename_i hconst
        obtain ⟨x, hx, heq⟩ := Option.map_eq_some_iff.mp h
        split at heq
        · obtain rfl := Fp.eq_of_eq ‹_›
          simp_all
        · obtain ⟨rfl, rfl⟩ := Prod.mk.inj heq
          split
          · obtain rfl := Fp.eq_of_eq ‹_›
            simp_all
          · simp_all
      · simp_all
    case h_4 => simp_all
  case h_5 =>
    rename_i hop
    obtain ⟨rfl, rfl⟩ := Prod.mk.inj (Option.some.inj h)
    split
    · simp_all
    · simp_all
  case h_6 =>
    obtain ⟨rfl, rfl⟩ := Prod.mk.inj (Option.some.inj h)
    exact Or.inl ⟨rfl, rfl⟩

end Transform

/-! ## What the transformations keep -/

section Keep
variable {V : Type} {I : Interp V} {c c' : BhConstant} {o v w : BhView}

theorem storesTo_congr {f g : List ℕ → V} (h : ∀ idx ∈ indices v.shape, f idx = g idx) : storesTo v f = storesTo v g := by
  unfold storesTo
  split
  · rfl
  · exact List.map_congr_left fun idx hidx => by rw [h idx hidx]

/-- Storing what is there. -/
theorem applyStores_load (v : BhView) (m : Mem V) :
    applyStores (storesTo v fun idx => load I c v idx m) m = m := by
  funext l
  by_cases hb : v.base = some l.1
  · obtain ⟨b, off⟩ := l
    rw [applyStores_storesTo hb]
    cases hr : v.lastAt off with
    | none => rfl
    | some r =>
      obtain ⟨-, hoff⟩ := v.lastAt_mem hr
      rw [Option.map_some, Option.getD_some, load_of_base hb, hoff]
  · exact applyStores_storesTo_of_base_ne _ m hb

theorem runWhole_identity (m : Mem V) :
    runWhole I ⟨.identity, o, v, w, c⟩ m = applyStores (storesTo o fun idx =>
      I.ewise .identity [o.base.map BhBase.type, v.base.map BhBase.type] [load I c v idx m]) m := rfl

theorem runBytecode_zip {opcode : BhOpcode} (h : opcode = .add ∨ opcode = .multiply ∨ opcode = .divide) (m : Mem V) :
    runBytecode I ⟨opcode, o, v, w, c⟩ m = applyStores (storesTo o fun idx =>
      I.ewise opcode [o.base.map BhBase.type, v.base.map BhBase.type, w.base.map BhBase.type]
        [load I c v idx m, load I c w idx m]) m := by
  obtain rfl | rfl | rfl := h <;> rfl

variable [CommRing V]

/-- The value of an operand is kept by the identity of its own type. -/
theorem identity_load (hI : Arithmetic I) {b : BhBase} (ho : o.base = some b)
    (hv : (∃ b', v.base = some b' ∧ b'.type = b.type) ∨ (v.base = none ∧ ∃ s : Scalar, s.type = b.type ∧ c' = s.bh ∧ c = s.bh))
    (idx : List ℕ) (m : Mem V) :
    I.ewise .identity [o.base.map BhBase.type, v.base.map BhBase.type] [load I c' v idx m] = load I c v idx m := by
  obtain ⟨b', hb', htype⟩ | ⟨hnone, s, htype, rfl, rfl⟩ := hv
  · rw [ho, hb', load_of_base hb', load_of_base hb', Option.map_some, Option.map_some, htype]
    exact hI.identity _ _
  · simp only [ho, hnone, Option.map_some, Option.map_none, load, ← htype]
    exact hI.constant s

/-- A transformed identity does what the identity does: writing an array to itself changes nothing. -/
theorem runTac_transformIdentity {n : ℕ} {prog : Fin n → Instr} {t : Table n} (tac : Tac) (hI : Arithmetic I)
    (hop : tac.op = .map) (hoper : tac.oper = .identity) (hout : (viewAt prog t tac.out).base.isSome = true) (m : Mem V) :
    runTac I prog t (transformIdentity tac) m = runWhole I (lookUp prog t tac) m := by
  unfold transformIdentity
  split
  · rename_i heq
    obtain ⟨b, hb⟩ := Option.isSome_iff_exists.mp hout
    have hlook : lookUp prog t tac = ⟨.identity, viewAt prog t tac.out, viewAt prog t tac.out, viewAt prog t tac.in2,
        joinConstants .identity (constAt prog t tac.in1) (constAt prog t tac.in2)⟩ := by
      unfold lookUp
      rw [hop, hoper, ← heq]
      rfl
    rw [hlook, runWhole_identity]
    rw [storesTo_congr fun idx _ => identity_load (c := noConstant) hI hb (Or.inl ⟨b, hb, rfl⟩) idx m,
      applyStores_load]
    rfl
  · simp only [runTac, hop]

end Keep

/-! ## One element -/

section One
variable {shape idx idx' : List ℕ}

theorem eq_of_mem_indices (h : shape.prod = 1) (hi : idx ∈ indices shape) (hi' : idx' ∈ indices shape) : idx = idx' := by
  obtain ⟨z, hz⟩ := List.length_eq_one_iff.mp ((length_indices shape).trans h)
  rw [hz, List.mem_singleton] at hi hi'
  rw [hi, hi']

theorem eq_one_of_prod {ns : List ℕ} (h : ns.prod = 1) : ∀ x ∈ ns, x = 1 := by
  induction ns with
  | nil => simp
  | cons y ns ih =>
    rw [List.prod_cons] at h
    rw [List.forall_mem_cons]
    exact ⟨Nat.dvd_one.mp (Dvd.intro _ h), ih (Nat.dvd_one.mp (Dvd.intro_left _ h))⟩

theorem eq_zero_of_mem_indices (h : shape.prod = 1) (hi : idx ∈ indices shape) : ∀ x ∈ idx, x = 0 := by
  have hone := eq_one_of_prod h
  rw [mem_indices] at hi
  clear h
  induction hi with
  | nil => simp
  | cons hx _ ih =>
    rw [List.forall_mem_cons] at hone ⊢
    refine ⟨?_, ih hone.2⟩
    have := hone.1
    omega

theorem dot_eq_zero {ds : List Dim} (h : ∀ x ∈ idx, x = 0) : dot ds idx = 0 := by
  induction ds generalizing idx with
  | nil => simp [dot]
  | cons d ds ih =>
    cases idx with
    | nil => simp [dot]
    | cons x idx =>
      rw [List.forall_mem_cons] at h
      simp [dot, h.1, ih h.2]

theorem prod_reduceShape (axis : ℕ) (h : shape.prod = 1) : (reduceShape axis shape).prod = 1 := by
  unfold reduceShape
  split
  · rfl
  · apply List.prod_eq_one
    intro x hx
    exact eq_one_of_prod h x (List.mem_of_mem_eraseIdx hx)

theorem determineLayout_scalar {dims : List Dim} (h : determineLayout dims = .scalar) : (dims.map Dim.shape).prod = 1 := by
  by_contra hne
  revert h
  unfold determineLayout
  simp only [hne, if_false]
  split_ifs <;> exact id

variable {V : Type} {I : Interp V} {c : BhConstant} {v : BhView}

/-- A view of one element is read at its start, whatever the index. -/
theorem load_zero (h : ∀ x ∈ idx, x = 0) (h' : ∀ x ∈ idx', x = 0) (m : Mem V) :
    load I c v idx m = load I c v idx' m := by
  unfold load BhView.offset
  rw [dot_eq_zero h, dot_eq_zero h']

end One

/-! ## Scalars that are zero -/

theorem eq_zeroOf {s : Scalar} (h : s.double = some (.fin 0)) : s = ⟨s.type, zeroOf s.type⟩ := by
  obtain ⟨type, x⟩ := s
  have hint : ∀ type (x : BitVec (bits type)), some (Fp.fin (number type x)) = some (Fp.fin 0) → number type x = 0 := by
    intro type x hx
    simpa using hx
  cases type with
  | float32 | float64 =>
    obtain rfl : x = Fp.fin 0 := Option.some.inj h
    rfl
  | complex64 | complex128 => cases h
  | _ =>
    have hx := hint _ x h
    exact congrArg (Scalar.mk _) (number_inj hx)

theorem clear_eq {c : Constant} {p : Part} {s : Scalar} (hp : c.part p = some s) (h : s.double = some (.fin 0)) :
    c.clear p = c := by
  have hs := eq_zeroOf h
  cases c <;> cases p <;> cases hp
  · exact congrArg Constant.typed hs.symm
  · exact congrArg (Constant.r123 · _) (eq_of_heq (Scalar.mk.inj hs).2).symm
  · exact congrArg (Constant.r123 _) (eq_of_heq (Scalar.mk.inj hs).2).symm

theorem double_eq_none {s : Scalar} : s.double = none ↔ s.type = .complex64 ∨ s.type = .complex128 := by
  obtain ⟨type, x⟩ := s
  cases type <;> simp [Scalar.double]

/-! ## One instruction -/

section Step
variable {n : ℕ} {prog prog' : Fin n → Instr} {t : Table n} {occ : List (Operand n)} {i : Fin n} {tac : Tac}
  {V : Type} {I : Interp V}

/-- The identity that a code is turned into, of the first input. -/
theorem lookUp_identity (h : Tabulates prog prog' t occ) (hidx : Indices prog occ i tac) :
    lookUp prog' t { tac with op := .map, oper := .identity, in2 := 0 } =
      ⟨.identity, (instruction prog i).operand0, (instruction prog i).operand1, blank,
        joinConstants .identity (inputConst prog (1 ≤ inputs (prog i).opcode) (i, 1)) none⟩ := by
  unfold lookUp instruction
  rw [viewAt_of_mapped h hidx.out, viewAt_of_mapped h hidx.in1, constAt_of_mapped h hidx.in1]
  rfl

theorem viewAt_out_isSome (h : Tabulates prog prog' t occ) (hidx : Indices prog occ i tac) (htc : TypeCorrect prog i)
    (hne : (prog i).opcode ≠ .none) :
    ∃ b, (slot prog (i, 0)).base = some b ∧ (instruction prog i).operand0.base = some b ∧
      (viewAt prog' t tac.out).base.isSome = true := by
  obtain ⟨b, hb⟩ := Option.isSome_iff_exists.mp (htc.output hne)
  have hbase : (instruction prog i).operand0.base = some b := by
    simp [instruction, inputView, hne, Slot.view, hb]
  refine ⟨b, hb, hbase, ?_⟩
  rw [viewAt_of_mapped h hidx.out]
  exact Option.isSome_iff_exists.mpr ⟨b, hbase⟩

/-- An operation on one element that reads its first input. -/
theorem runTac_toIdentity [CommRing V] (hI : Arithmetic I) (h : Tabulates prog prog' t occ) (hidx : Indices prog occ i tac)
    (htc : TypeCorrect prog i) (hne : (prog i).opcode ≠ .none) (m : Mem V) :
    runTac I prog' t (toIdentity tac) m =
      applyStores (storesTo (instruction prog i).operand0 fun idx =>
        I.ewise .identity [(instruction prog i).operand0.base.map BhBase.type,
          (instruction prog i).operand1.base.map BhBase.type]
          [load I (joinConstants .identity (inputConst prog (1 ≤ inputs (prog i).opcode) (i, 1)) none)
            (instruction prog i).operand1 idx m]) m := by
  obtain ⟨b, hb, hbase, hsome⟩ := viewAt_out_isSome h hidx htc hne
  unfold toIdentity
  rw [runTac_transformIdentity { tac with op := .map, oper := .identity, in2 := 0 } hI rfl rfl hsome, lookUp_identity h hidx, runWhole_identity]

theorem sweep_opcode (h : bhOpcodeIsSweep (prog i).opcode = true) :
    (prog i).opcode ≠ .none ∧ inputs (prog i).opcode = 2 ∧
      ((instruction prog i).kind = .reduction ∨ (instruction prog i).kind = .accumulate) := by
  change _ ∧ _ ∧ (bhKind (prog i).opcode = .reduction ∨ bhKind (prog i).opcode = .accumulate)
  generalize (prog i).opcode = opcode at h
  cases opcode <;> first | cases h; done | decide

/-- Reducing the one element of an array, or summing up to it. -/
theorem reduce_singleton (opcode : BhOpcode) (type : Option BhType) (x : V) : I.reduce opcode type [x] = x := rfl

theorem runBytecode_scalar {j : BhInstruction} (hk : j.kind = .reduction ∨ j.kind = .accumulate) (hwf : j.WellFormed)
    (hscalar : j.operand1.shape.prod = 1) (m : Mem V) :
    runBytecode I j m = applyStores (storesTo j.operand0 fun idx => load I j.constant j.operand1 idx m) m := by
  obtain ⟨z, hz⟩ := List.length_eq_one_iff.mp ((length_indices _).trans hscalar)
  have hzmem : z ∈ indices j.operand1.shape := by simp [hz]
  have hzero := eq_zero_of_mem_indices hscalar hzmem
  obtain hk | hk := hk
  · simp only [BhInstruction.WellFormed, hk] at hwf
    rw [runBytecode_reduction I hk]
    unfold reduceStores
    rw [storesTo_congr]
    intro o ho
    rw [hwf.2] at ho
    have hprod := prod_reduceShape j.axis hscalar
    have hfibre : axisFibre j o = [z] := by
      unfold axisFibre
      rw [hz, List.filter_eq_self]
      intro idx hidx
      rw [List.mem_singleton.mp hidx]
      exact beq_iff_eq.mpr (eq_of_mem_indices hprod (reduceIndex_mem hzmem) ho)
    rw [hfibre, List.map_singleton, reduce_singleton]
    exact load_zero hzero (eq_zero_of_mem_indices hprod ho) m
  · simp only [BhInstruction.WellFormed, hk] at hwf
    rw [runBytecode_of_ne I (by rw [hk]; exact BhKind.noConfusion)]
    unfold runWhole wholeStores
    simp only [hk]
    rw [storesTo_congr]
    intro o ho
    rw [hwf] at ho
    have ho0 := eq_zero_of_mem_indices hscalar ho
    have hcoord : o.getD j.axis 0 = 0 := by
      rw [List.getD_eq_getElem?_getD]
      cases hget : o[j.axis]? with
      | none => rfl
      | some x => exact ho0 x (List.mem_of_getElem? hget)
    have hupTo : j.upTo o = [o.set j.axis 0] := by
      unfold BhInstruction.upTo
      rw [hcoord]
      rfl
    rw [hupTo, List.map_singleton, reduce_singleton]
    refine load_zero ?_ ho0 m
    intro x hx
    obtain hx | hx := List.mem_or_eq_of_mem_set hx
    · exact ho0 x hx
    · exact hx

/-- A sweep over one element is the identity. -/
theorem runTac_sweep_scalar [CommRing V] (hI : Arithmetic I) (h : Tabulates prog prog' t occ) (hidx : Indices prog occ i tac)
    (htc : TypeCorrect prog i) (hsweep : bhOpcodeIsSweep (prog i).opcode = true)
    (hscalar : (instruction prog i).operand1.shape.prod = 1) (m : Mem V) :
    runTac I prog' t (toIdentity tac) m = runBytecode I (instruction prog i) m := by
  obtain ⟨hne, hin, hk⟩ := sweep_opcode hsweep
  obtain ⟨hconst, htype, hwf⟩ := htc.sweep hsweep
  obtain ⟨b, hb, hbase, -⟩ := viewAt_out_isSome h hidx htc hne
  obtain ⟨b', hb', hbt⟩ : ∃ b', (slot prog (i, 1)).base = some b' ∧ b'.type = b.type := by
    rw [hb] at htype
    exact Option.map_eq_some_iff.mp htype
  have hbase' : (instruction prog i).operand1.base = some b' := by
    simp [instruction, inputView, hin, Slot.view, hb']
  rw [runTac_toIdentity hI h hidx htc hne, storesTo_congr fun idx _ =>
    identity_load (c := (instruction prog i).constant) hI hbase (Or.inl ⟨b', hbase', hbt⟩) idx m,
    runBytecode_scalar hk hwf hscalar]

/-- A reduction to one element is complete. -/
theorem runTac_complete (h : Tabulates prog prog' t occ) (hidx : Indices prog occ i tac) (htc : TypeCorrect prog i)
    (hop : tac.op = .reducePartial) (hsweep : bhOpcodeIsSweep (prog i).opcode = true)
    (hscalar : (instruction prog i).operand0.shape.prod = 1) (m : Mem V) :
    runTac I prog' t { tac with op := .reduceComplete } m = runBytecode I (instruction prog i) m := by
  have hlook : lookUp prog' t { tac with op := .reduceComplete } = instruction prog i := by
    rw [← lookUp_eq h hidx]
    unfold lookUp
    rw [hop]
    rfl
  have hk : (instruction prog i).kind = .reduction := (tacOf_kind hidx.code).1.mp hop
  have hwf := (htc.sweep hsweep).2.2
  simp only [BhInstruction.WellFormed, hk] at hwf
  rw [runBytecode_reduction I hk]
  simp only [runTac, hlook]
  unfold reduceStores
  rw [storesTo_congr]
  intro o ho
  have hall : axisFibre (instruction prog i) o = indices (instruction prog i).operand1.shape := by
    unfold axisFibre
    rw [List.filter_eq_self]
    intro idx hidx
    refine beq_iff_eq.mpr (eq_of_mem_indices hscalar ?_ ho)
    rw [hwf.2]
    exact reduceIndex_mem hidx
  rw [hall]

def IsArithmetic (opcode : BhOpcode) : Prop := opcode = .add ∨ opcode = .multiply ∨ opcode = .divide

theorem IsArithmetic.inputs {opcode : BhOpcode} (h : IsArithmetic opcode) : inputs opcode = 2 ∧ opcode ≠ .none := by
  obtain rfl | rfl | rfl := h <;> decide

/-- An arithmetic operation with a constant as its second input. -/
theorem arithmetic_constant (htc : TypeCorrect prog i) (ha : IsArithmetic (prog i).opcode) {b : BhBase}
    (hb : (slot prog (i, 0)).base = some b) (h2 : (slot prog (i, 2)).base = none) :
    ∃ s, constOf prog (i, 2) = some s ∧ s.type = b.type ∧ (instruction prog i).constant = s.bh ∧
      (instruction prog i).operand2.base = none ∧
      ((∃ b', (instruction prog i).operand1.base = some b' ∧ b'.type = b.type) ∨
        ((instruction prog i).operand1.base = none ∧ ∃ s' : Scalar, s'.type = b.type ∧
          joinConstants .identity (inputConst prog (1 ≤ inputs (prog i).opcode) (i, 1)) none = s'.bh ∧
          (instruction prog i).constant = s'.bh)) := by
  obtain ⟨htypes, htyped⟩ := htc.arithmetic ha
  obtain ⟨hin, -⟩ := ha.inputs
  obtain ⟨s, hs⟩ := htyped 2 h2
  have hconst : ∀ k, constOf prog (i, k) = some s := by
    intro k
    simp [constOf, hs, constPart, Constant.part]
  have htype : s.type = b.type := by
    have := htypes 2
    rw [h2, hb] at this
    simpa [hs, constType] using this
  have hjoin : ∀ x, joinConstants (prog i).opcode x (some s) = s.bh := by
    intro x
    obtain h | h | h := ha <;> rw [h] <;> rfl
  have hcst : (instruction prog i).constant = s.bh := by
    simp only [instruction, hin, inputConst, h2, hconst]
    exact hjoin _
  refine ⟨s, hconst 2, htype, hcst, ?_, ?_⟩
  · simp [instruction, inputView, hin, Slot.view, h2, blank]
  · cases h1 : (slot prog (i, 1)).base with
    | some b' =>
      refine Or.inl ⟨b', by simp [instruction, inputView, hin, Slot.view, h1], ?_⟩
      have := htypes 1
      rwa [h1, hb] at this
    | none =>
      refine Or.inr ⟨by simp [instruction, inputView, hin, Slot.view, h1, blank], s, htype, ?_, hcst⟩
      simp only [hin, inputConst, h1, hconst]
      rfl

/-- An operation whose second input is its neutral element is the identity of the first. -/
theorem runTac_neutral [CommRing V] (hI : Arithmetic I) (h : Tabulates prog prog' t occ) (hidx : Indices prog occ i tac)
    (htc : TypeCorrect prog i) (ha : IsArithmetic (prog i).opcode) (h2 : (slot prog (i, 2)).base = none) {s : Scalar}
    (hs : constOf prog (i, 2) = some s)
    (hneutral : ∀ types x, I.ewise (prog i).opcode types [x, I.konst s.bh] = x) (m : Mem V) :
    runTac I prog' t (toIdentity tac) m = runBytecode I (instruction prog i) m := by
  obtain ⟨b, hb, hbase, -⟩ := viewAt_out_isSome h hidx htc ha.inputs.2
  obtain ⟨s', hs', -, hconst, hnone, hv⟩ := arithmetic_constant htc ha hb h2
  obtain rfl := Option.some.inj (hs.symm.trans hs')
  rw [runTac_toIdentity hI h hidx htc ha.inputs.2, storesTo_congr fun idx _ => identity_load hI hbase hv idx m]
  have hrun := runBytecode_zip (I := I) (o := (instruction prog i).operand0) (v := (instruction prog i).operand1)
    (w := (instruction prog i).operand2) (c := (instruction prog i).constant) ha m
  refine Eq.trans ?_ hrun.symm
  rw [storesTo_congr]
  intro idx _
  have hload : load I (instruction prog i).constant (instruction prog i).operand2 idx m = I.konst s.bh := by
    simp only [load, hnone, hconst]
  rw [hload, hneutral]

/-- A product with zero is the zero. -/
theorem runTac_zero [CommRing V] (hI : Arithmetic I) (h : Tabulates prog prog' t occ) (hidx : Indices prog occ i tac)
    (htc : TypeCorrect prog i) (ha : (prog i).opcode = .multiply) (h2 : (slot prog (i, 2)).base = none) {s : Scalar}
    (hs : constOf prog (i, 2) = some s) (hzero : s.double = some (.fin 0)) (m : Mem V) :
    runTac I prog' t { tac with op := .map, oper := .identity, in1 := tac.in2, in2 := 0 } m =
      runBytecode I (instruction prog i) m := by
  have ha' : IsArithmetic (prog i).opcode := Or.inr (Or.inl ha)
  obtain ⟨b, hb, hbase, -⟩ := viewAt_out_isSome h hidx htc ha'.inputs.2
  obtain ⟨s', hs', htype, hconst, hnone, hv⟩ := arithmetic_constant htc ha' hb h2
  obtain rfl := Option.some.inj (hs.symm.trans hs')
  have hlook : lookUp prog' t { tac with op := .map, oper := .identity, in1 := tac.in2, in2 := 0 } =
      ⟨.identity, (instruction prog i).operand0, (instruction prog i).operand2, blank, s.bh⟩ := by
    unfold lookUp instruction
    rw [viewAt_of_mapped h hidx.out, viewAt_of_mapped h hidx.in2, constAt_of_mapped h hidx.in2]
    simp only [ha'.inputs.1, inputConst, h2, hs]
    rfl
  have hrun := runBytecode_zip (I := I) (o := (instruction prog i).operand0) (v := (instruction prog i).operand1)
    (w := (instruction prog i).operand2) (c := (instruction prog i).constant) ha' m
  refine Eq.trans ?_ hrun.symm
  simp only [runTac, hlook]
  rw [runWhole_identity, storesTo_congr]
  intro idx _
  rw [identity_load (c := s.bh) hI hbase (Or.inr ⟨hnone, s, htype, rfl, rfl⟩), ha, hI.multiply]
  simp only [load, hnone, hconst, hI.zero s hzero, mul_zero]

theorem Mapped.refers {used : Bool} {idx : ℕ} {c : Operand n} (h : Mapped prog occ used idx c) (hused : used = true) :
    Refers prog occ idx c := by
  subst hused
  exact h

theorem Indices.grows {occ' : List (Operand n)} (h : Indices prog occ i tac) (hg : Grows prog occ occ') :
    Indices prog occ' i tac := ⟨h.code, h.out.grows hg, h.in1.grows hg, h.in2.grows hg⟩

/-- What `get_scalar` reads. -/
theorem getScalar_eq {idx : ℕ} {c : Operand n} (h : Tabulates prog prog' t occ) (hidx : Refers prog occ idx c)
    (hc : (slot prog c).base = none) : getScalar prog' t idx = (constOf prog c).bind Scalar.double := by
  have hne := (h.entry_of_refers hidx).1
  have hconst := constAt_of_refers h hidx
  unfold constAt inputConst at hconst
  rw [if_neg hne, hc] at hconst
  unfold getScalar
  rw [hconst]
  rfl

/-- Setting a constant to zero that is zero. -/
theorem clearScalar_eq {idx : ℕ} {c : Operand n} (h : Tabulates prog prog' t occ) (hidx : Refers prog occ idx c)
    (hc : (slot prog c).base = none) {s : Scalar} (hs : constOf prog c = some s) (hzero : s.double = some (.fin 0)) :
    clearScalar prog' t idx = prog' := by
  obtain ⟨-, d, hentry, hd⟩ := h.entry_of_refers hidx
  obtain ⟨_, _, hb, _⟩ | ⟨hdn, _, hconst⟩ := stands_cases hd
  · rw [hc] at hb
    cases hb
  have hdata : (t.table idx).data = .entry idx ∧
      (t.table idx).constData = (constPart (prog d.1).constant d.2).map (d.1, ·) := by
    rw [hentry]
    simp only [entryOf, hdn, and_self]
  rw [hs] at hconst
  obtain ⟨part, hpart, hval⟩ := Option.bind_eq_some_iff.mp hconst
  unfold clearScalar
  simp only [hdata.1, hdata.2, hpart, Option.map_some]
  rw [← h.frame.constant d.1] at hval
  rw [clear_eq hval hzero, Function.update_eq_self]

theorem layout_scalarConst {idx : ℕ} {c : Operand n} (h : Tabulates prog prog' t occ) (hidx : Refers prog occ idx c) :
    (t.table idx).layout = .scalarConst ↔ (slot prog c).base = none := by
  rw [layout_of_refers h hidx]
  split
  · simp only [*]
  · simp only [determineLayout_ne, *]

theorem layout_scalar {idx : ℕ} {c : Operand n} (h : Tabulates prog prog' t occ) (hidx : Refers prog occ idx c)
    (hl : (t.table idx).layout = .scalar) : (slot prog c).view.shape.prod = 1 := by
  rw [layout_of_refers h hidx] at hl
  split at hl
  · cases hl
  · rename_i hne
    obtain ⟨b, hb⟩ := Option.ne_none_iff_exists'.mp hne
    have hshape : (slot prog c).view.shape = (slot prog c).dims.map Strided.Dim.shape := by
      simp only [Slot.view, hb, BhView.shape]
    rw [hshape, determineLayout_scalar hl]

/-- A code means what its instruction means, in every table that grows from the one it was made with. -/
def Denotes (prog : Fin n → Instr) (occ : List (Operand n)) (i : Fin n) (tac : Tac) : Prop :=
  ∀ {V : Type} [CommRing V] (I : Interp V), Arithmetic I → ∀ (prog' : Fin n → Instr) (t : Table n) (occ' : List (Operand n)),
    Grows prog occ occ' → Tabulates prog prog' t occ' →
    ∀ m : Mem V, runTac I prog' t tac m = runBytecode I (instruction prog i) m

theorem isSweep_of_kind {opcode : BhOpcode} (h : bhKind opcode = .reduction ∨ bhKind opcode = .accumulate) :
    bhOpcodeIsSweep opcode = true := by
  cases opcode <;> first | rfl | (exact absurd h (by decide)) | skip
  exact h.elim (fun h => nomatch h) (fun h => nomatch h)

theorem operand1_eq (h : 1 ≤ inputs (prog i).opcode) : (instruction prog i).operand1 = (slot prog (i, 1)).view := by
  simp only [instruction, inputView, h, decide_true, if_true]

theorem operand0_eq (h : (prog i).opcode ≠ .none) : (instruction prog i).operand0 = (slot prog (i, 0)).view := by
  simp [instruction, inputView, h]

/-- The operands of a sweep, in the table. -/
theorem sweep_refers (hidx : Indices prog occ i tac) (hs : bhOpcodeIsSweep (prog i).opcode = true) :
    Refers prog occ tac.out (i, 0) ∧ Refers prog occ tac.in1 (i, 1) := by
  obtain ⟨hne, hin, -⟩ := sweep_opcode hs
  exact ⟨hidx.out.refers (by simpa using hne), hidx.in1.refers (by simp [hin])⟩

/-- The constant of an arithmetic operation, as `tac_transform` reads it. -/
theorem arithmetic_scalar (htc : TypeCorrect prog i) (h : Tabulates prog prog' t occ) (hidx : Indices prog occ i tac)
    (ha : IsArithmetic (prog i).opcode) (hl : (t.table tac.in2).layout = .scalarConst) :
    (slot prog (i, 2)).base = none ∧ ∃ s, constOf prog (i, 2) = some s ∧ getScalar prog' t tac.in2 = s.double ∧
      (s.type = .complex64 ∨ s.type = .complex128 ↔ constType (prog i).constant = .complex64 ∨
        constType (prog i).constant = .complex128) := by
  have hr := hidx.in2.refers (by simp [ha.inputs.1])
  have h2 := (layout_scalarConst h hr).mp hl
  obtain ⟨s, hs⟩ := (htc.arithmetic ha).2 2 h2
  have hconst : constOf prog (i, 2) = some s := by simp [constOf, hs, constPart, Constant.part]
  refine ⟨h2, s, hconst, ?_, by rw [hs]; rfl⟩
  rw [getScalar_eq h hr h2, hconst]
  rfl

theorem tacTransform_spec (htc : TypeCorrect prog i) (h : Tabulates prog prog' t occ) (hidx : Indices prog occ i tac)
    {prog'' : Fin n → Instr} {tac' : Tac} (htrans : tacTransform prog' t tac = some (prog'', tac')) :
    prog'' = prog' ∧ Denotes prog occ i tac' := by
  have hcode := (tacOf_spec hidx.code).2
  obtain ⟨hred, hscan, -, -, -, hcomplete⟩ := tacOf_kind hidx.code
  obtain ⟨rfl, rfl⟩ | ⟨rfl, rfl, hl, hop⟩ | ⟨rfl, rfl, hop, hl⟩ | ⟨rfl, rfl, hop, hl, hoper⟩ |
    ⟨rfl, rfl, hop, hoper, hl, hx⟩ | ⟨rfl, rfl, hop, hoper⟩ := tacTransform_cases htrans
  · exact ⟨rfl, fun I _ prog' t occ' hg h' m => runTac_plain I h' (hidx.grows hg) m⟩
  · have hs : bhOpcodeIsSweep (prog i).opcode = true := by
      obtain hop | hop | hop := hop
      · exact absurd hop hcomplete
      · exact isSweep_of_kind (Or.inr (hscan.mp hop))
      · exact isSweep_of_kind (Or.inl (hred.mp hop))
    have hone := layout_scalar h (sweep_refers hidx hs).2 hl
    rw [← operand1_eq (by rw [(sweep_opcode hs).2.1]; decide)] at hone
    exact ⟨rfl, fun I hI _ _ _ hg h' m => runTac_sweep_scalar hI h' (hidx.grows hg) htc hs hone m⟩
  · have hs := isSweep_of_kind (Or.inl (hred.mp hop))
    have hone := layout_scalar h (sweep_refers hidx hs).1 hl
    rw [← operand0_eq (sweep_opcode hs).1] at hone
    exact ⟨rfl, fun I _ _ _ _ hg h' m => runTac_complete h' (hidx.grows hg) htc hop hs hone m⟩
  · rw [hop] at hcode
    have ha : IsArithmetic (prog i).opcode := by
      rw [← hcode]
      obtain ⟨ho, -⟩ | ⟨ho | ho, -⟩ := hoper <;> rw [ho]
      · exact Or.inl rfl
      · exact Or.inr (Or.inl rfl)
      · exact Or.inr (Or.inr rfl)
    obtain ⟨h2, s, hs, hget, -⟩ := arithmetic_scalar htc h hidx ha hl
    refine ⟨rfl, fun I hI _ _ _ hg h' m => runTac_neutral hI h' (hidx.grows hg) htc ha h2 hs ?_ m⟩
    intro types x
    rw [hget] at hoper
    obtain ⟨ho, h0⟩ | ⟨ho | ho, h1⟩ := hoper <;> rw [← hcode, ho]
    · rw [hI.zero s h0]
      exact (hI.add types x 0).trans (add_zero x)
    · rw [hI.one s h1]
      exact (hI.multiply types x 1).trans (mul_one x)
    · rw [hI.one s h1]
      exact hI.divide_one types x
  · rw [hop, hoper] at hcode
    have ha : IsArithmetic (prog i).opcode := Or.inr (Or.inl hcode.symm)
    obtain ⟨h2, s, hs, hget, -⟩ := arithmetic_scalar htc h hidx ha hl
    rw [hget] at hx
    have hr := hidx.in2.refers (by simp [ha.inputs.1])
    refine ⟨clearScalar_eq h hr h2 hs hx, fun I hI _ _ _ hg h' m => ?_⟩
    exact runTac_zero hI h' (hidx.grows hg) htc hcode.symm h2 hs hx m
  · rw [hop, hoper] at hcode
    have hne : (prog i).opcode ≠ .none := by
      rw [← hcode]
      exact BhOpcode.noConfusion
    refine ⟨rfl, fun I hI _ _ _ hg h' m => ?_⟩
    obtain ⟨b, hb, hbase, hsome⟩ := viewAt_out_isSome h' (hidx.grows hg) htc hne
    rw [runTac_transformIdentity tac hI hop hoper hsome, lookUp_eq h' (hidx.grows hg), runBytecode_of_ne]
    change bhKind (prog i).opcode ≠ .reduction
    rw [← hcode]
    decide

/-- An addition, product or quotient with a complex constant on the right: `get_scalar` cannot read it. -/
def Unreadable (prog : Fin n → Instr) (i : Fin n) : Prop :=
  IsArithmetic (prog i).opcode ∧ (slot prog (i, 2)).base = none ∧
    (constType (prog i).constant = .complex64 ∨ constType (prog i).constant = .complex128)

theorem tacTransform_eq_none : tacTransform prog' t tac = none ↔
    tac.op = .zip ∧ IsArithmetic tac.oper ∧ (t.table tac.in2).layout = .scalarConst ∧ getScalar prog' t tac.in2 = none := by
  unfold tacTransform IsArithmetic
  split
  case h_4 =>
    rename_i hop
    split
    case h_1 | h_2 | h_3 =>
      rename_i hoper
      split
      · simp [*]
      · simp [*]
    case h_4 => simp_all
  all_goals simp_all

theorem tacTransform_throws (htc : TypeCorrect prog i) (h : Tabulates prog prog' t occ) (hidx : Indices prog occ i tac) :
    tacTransform prog' t tac = none ↔ Unreadable prog i := by
  have hcode := hidx.code
  rw [tacTransform_eq_none]
  constructor
  · intro hnone
    obtain ⟨hop, ha, hl, hx⟩ := hnone
    have ha' : IsArithmetic (prog i).opcode := by
      rw [← (tacOf_spec hidx.code).2, hop]
      exact ha
    obtain ⟨h2, s, -, hget, hcomplex⟩ := arithmetic_scalar htc h hidx ha' hl
    rw [hget, double_eq_none] at hx
    exact ⟨ha', h2, hcomplex.mp hx⟩
  · intro hun
    obtain ⟨ha, h2, hcomplex⟩ := hun
    have hl := (layout_scalarConst h (hidx.in2.refers (by simp [ha.inputs.1]))).mpr h2
    obtain ⟨-, s, -, hget, hiff⟩ := arithmetic_scalar htc h hidx ha hl
    have hx := double_eq_none.mpr (hiff.mpr hcomplex)
    have hopoper : tac.op = .zip ∧ IsArithmetic tac.oper := by
      unfold IsArithmetic
      obtain ho | ho | ho := ha <;> rw [ho] at hcode <;>
        simp only [tacOf, Option.some.injEq, Prod.mk.injEq] at hcode <;> simp [← hcode.1, ← hcode.2.1]
    exact ⟨hopoper.1, hopoper.2, hl, hget.trans hx⟩

theorem Denotes.grows {occ' : List (Operand n)} (h : Denotes prog occ i tac) (hg : Grows prog occ occ') :
    Denotes prog occ' i tac := fun I hI prog' t occ'' hg' h' m => h I hI prog' t occ'' (fun p hp => hg' p (hg p hp)) h' m

/-- One turn of the loop throws, or makes a code that means what the instruction means. -/
theorem lower_spec (htc : TypeCorrect prog i) (h : Tabulates prog prog' t occ) :
    (lower prog' t i = none ∧ Unreadable prog i) ∨
      (¬Unreadable prog i ∧ ∃ prog'' t' tac occ', lower prog' t i = some (prog'', t', tac) ∧
        Tabulates prog prog'' t' occ' ∧ Grows prog occ occ' ∧ Denotes prog occ' i tac) := by
  obtain ⟨⟨op, oper, k⟩, hcode⟩ := Option.isSome_iff_exists.mp htc.supported.1
  obtain rfl := (tacOf_spec hcode).1
  obtain ⟨⟨prog0, t0, out⟩, h0⟩ := mapInput_isSome t ((prog i).opcode ≠ .none) (i, 0) h.frame
    (fun hu _ => htc.output (of_decide_eq_true hu))
  obtain ⟨occ0, htab0, hg0, hout⟩ := mapInput_spec h h0
  obtain ⟨⟨prog1, t1, in1⟩, h1⟩ := mapInput_isSome t0 (1 ≤ inputs (prog i).opcode) (i, 1) htab0.frame
    (fun _ hk => absurd hk (show (1 : Fin 3) ≠ 0 by decide))
  obtain ⟨occ1, htab1, hg1, hin1⟩ := mapInput_spec htab0 h1
  obtain ⟨⟨prog2, t2, in2⟩, h2⟩ := mapInput_isSome t1 (2 ≤ inputs (prog i).opcode) (i, 2) htab1.frame
    (fun _ hk => absurd hk (show (2 : Fin 3) ≠ 0 by decide))
  obtain ⟨occ2, htab2, hg2, hin2⟩ := mapInput_spec htab1 h2
  have hidx : Indices prog occ2 i ⟨op, oper, out, in1, in2⟩ :=
    ⟨hcode, (hout.grows hg1).grows hg2, hin1.grows hg2, hin2⟩
  have hlower : lower prog' t i = (tacTransform prog2 t2 ⟨op, oper, out, in1, in2⟩).map fun r => (r.1, t2, r.2) := by
    unfold lower
    simp only [h.frame.opcode, h0, hcode, h1, h2, Option.bind_eq_bind, Option.bind_some]
    cases tacTransform prog2 t2 ⟨op, oper, out, in1, in2⟩ <;> rfl
  rw [hlower]
  cases htrans : tacTransform prog2 t2 ⟨op, oper, out, in1, in2⟩ with
  | none => exact Or.inl ⟨rfl, (tacTransform_throws htc htab2 hidx).mp htrans⟩
  | some r =>
    obtain ⟨hprog, hden⟩ := tacTransform_spec htc htab2 hidx htrans
    refine Or.inr ⟨?_, r.1, t2, r.2, occ2, rfl, ?_, ?_, hden⟩
    · intro hun
      rw [(tacTransform_throws htc htab2 hidx).mpr hun] at htrans
      cases htrans
    · rw [hprog]
      exact htab2
    · exact fun p hp => hg2 p (hg1 p (hg0 p hp))

theorem lowerAll_spec (htc : ∀ i, TypeCorrect prog i) (is : List (Fin n)) (h : Tabulates prog prog' t occ) :
    (lowerAll prog' t is = none ∧ ∃ i ∈ is, Unreadable prog i) ∨
      ((∀ i ∈ is, ¬Unreadable prog i) ∧ ∃ prog'' t' tacs occ', lowerAll prog' t is = some (prog'', t', tacs) ∧
        Tabulates prog prog'' t' occ' ∧ Grows prog occ occ' ∧ List.Forall₂ (Denotes prog occ') is tacs) := by
  induction is generalizing prog' t occ with
  | nil => exact Or.inr ⟨by simp, prog', t, [], occ, rfl, h, fun _ hp => hp, List.Forall₂.nil⟩
  | cons i is ih =>
    simp only [lowerAll, Option.bind_eq_bind]
    obtain ⟨hone, hun⟩ | ⟨hun, prog1, t1, tac, occ1, hone, htab1, hg1, hden⟩ := lower_spec (htc i) h
    · exact Or.inl ⟨by rw [hone]; rfl, i, List.mem_cons_self, hun⟩
    · rw [hone, Option.bind_some]
      obtain ⟨hrest, j, hj, hunj⟩ | ⟨hnone, prog2, t2, tacs, occ2, hrest, htab2, hg2, hall⟩ := ih htab1
      · exact Or.inl ⟨by simp only [hrest]; rfl, j, List.mem_cons_of_mem i hj, hunj⟩
      · refine Or.inr ⟨?_, prog2, t2, tac :: tacs, occ2, ?_, htab2, fun p hp => hg2 p (hg1 p hp), ?_⟩
        · rw [List.forall_mem_cons]
          exact ⟨hun, hnone⟩
        · simp only [hrest]
          rfl
        · exact List.Forall₂.cons (hden.grows hg2) hall

end Step

/-- The codes make the same updates of memory as the instructions, one for one. -/
def Preserves {n : ℕ} (prog prog' : Fin n → Instr) (t : Table n) (tacs : List Tac) : Prop :=
  ∀ {V : Type} [CommRing V] (I : Interp V), Arithmetic I →
    tacs.map (runTac I prog' t) = (List.finRange n).map fun i => runBytecode I (instruction prog i)

/-- Any list of instructions is lowered, and its meaning kept, exactly when no addition, product or quotient
has a complex constant on the right. -/
theorem instrsToTacs_preserves_iff {n : ℕ} {prog : Fin n → Instr} (htc : ∀ i, TypeCorrect prog i) (table : ℕ → Entry n) :
    (∃ prog' t tacs, instrsToTacs prog table = some (prog', t, tacs) ∧ Preserves prog prog' t tacs) ↔
      ∀ i, ¬Unreadable prog i := by
  unfold instrsToTacs
  obtain ⟨hnone, i, -, hun⟩ | ⟨hall, prog', t, tacs, occ, hsome, htab, -, hden⟩ :=
    lowerAll_spec htc (List.finRange n) (tabulates_nil prog table)
  · rw [hnone]
    constructor
    · intro ⟨_, _, _, h, _⟩
      cases h
    · intro h
      exact absurd hun (h i)
  · constructor
    · intro _ i
      exact hall i (List.mem_finRange i)
    · intro _
      refine ⟨prog', t, tacs, hsome, ?_⟩
      intro V _ I hI
      clear hsome hall
      generalize List.finRange n = is at hden
      induction hden with
      | nil => rfl
      | cons hd _ ih =>
        rw [List.map_cons, List.map_cons, ih]
        congr 1
        funext m
        exact hd I hI prog' t occ (fun _ hp => hp) htab m

/-- `a[0:8:2] = a[0:8:2] * in2`, with any constant. -/
def multiplyBy (in2 : Slot) (s : Scalar) : Fin 1 → Instr := fun _ =>
  ⟨.multiply, fun k => if k = 2 then in2 else ⟨some ⟨1, s.type, 8⟩, 0, 1, fun _ => 4, fun _ => 2⟩, .typed s⟩

theorem typeCorrect_multiplyBy (s : Scalar) (i : Fin 1) : TypeCorrect (multiplyBy constantSlot s) i where
  supported := ⟨rfl, fun _ => BhOpcode.noConfusion⟩
  output _ := rfl
  random h := by cases h
  arithmetic _ := by
    refine ⟨fun k => ?_, fun _ _ => ⟨s, rfl⟩⟩
    match k with
    | 0 => rfl
    | 1 => rfl
    | 2 => rfl
  sweep h := by cases h

/-- A product with seven is lowered, and over the rational numbers the code makes the product's update. -/
theorem instrsToTacs_multiplyBy_seven :
    (∀ i, TypeCorrect (multiplyBy constantSlot ⟨.int64, (7 : BitVec 64)⟩) i) ∧
      ∃ prog' t tacs, instrsToTacs (multiplyBy constantSlot ⟨.int64, (7 : BitVec 64)⟩) (fun _ => unused) =
        some (prog', t, tacs) ∧ Preserves (multiplyBy constantSlot ⟨.int64, (7 : BitVec 64)⟩) prog' t tacs ∧
          tacs.map (runTac ratInterp prog' t) =
            [runBytecode ratInterp (instruction (multiplyBy constantSlot ⟨.int64, (7 : BitVec 64)⟩) 0)] := by
  have hread : ∀ i, ¬Unreadable (multiplyBy constantSlot ⟨.int64, (7 : BitVec 64)⟩) i := by
    intro i hun
    obtain h | h := hun.2.2 <;> cases h
  obtain ⟨prog', t, tacs, hsome, hpreserves⟩ := (instrsToTacs_preserves_iff (typeCorrect_multiplyBy _) fun _ => unused).mpr hread
  exact ⟨typeCorrect_multiplyBy _, prog', t, tacs, hsome, hpreserves, hpreserves ratInterp arithmetic_ratInterp⟩

/-- A product with the complex number one is not lowered at all. -/
theorem instrsToTacs_complex_throws :
    ¬∀ (n : ℕ) (prog : Fin n → Instr) (table : ℕ → Entry n), (∀ i, TypeCorrect prog i) →
      ∃ prog' t tacs, instrsToTacs prog table = some (prog', t, tacs) ∧ Preserves prog prog' t tacs := by
  intro hall
  obtain ⟨prog', t, tacs, h, -⟩ := hall 1 (multiplyBy constantSlot ⟨.complex64, (Fp.fin 1, Fp.fin 0)⟩) (fun _ => unused)
    (typeCorrect_multiplyBy _)
  have hnone : (instrsToTacs (multiplyBy constantSlot ⟨.complex64, (Fp.fin 1, Fp.fin 0)⟩) fun _ => unused).isSome = false := by
    decide
  rw [h] at hnone
  cases hnone

end Bohrium.Cpu
