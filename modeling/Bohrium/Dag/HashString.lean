import Bohrium.Dag.FuseCache
import Bohrium.Library.Bytes
import Bohrium.Library.Delimited

/-! # The batch string is uniquely decodable

What the five instruction-hash functions of `core/bh_fuse_cache.cpp` write are fields one behind the
other. Two batches with one string have the same fields, instruction by instruction: every field has its
length, and a list of operands ends where no id can stand. -/
namespace Bohrium.HashString
open BatchHash Delimited
set_option autoImplicit false

/-! ## Fields -/

/-- The five instruction-hash functions. -/
inductive InstrHash
  | opcodeOpidShapeidSweepdim
  | opidSweepdim
  | scalarOpidSweepdim
  | scalarShapeidOpidSweepdim
  | opid
  deriving DecidableEq, Repr

def InstrHash.hash : InstrHash → BhInstruction → BatchHash → BatchHash
  | opcodeOpidShapeidSweepdim => hashOpcodeOpidShapeidSweepdim
  | opidSweepdim => hashOpidSweepdim
  | scalarOpidSweepdim => hashScalarOpidSweepdim
  | scalarShapeidOpidSweepdim => hashScalarShapeidOpidSweepdim
  | opid => hashOpid

/-- What the hasher is fed for a list of instructions. -/
def hashString (h : InstrHash) (l : List BhInstruction) : List UInt8 :=
  (l.foldl (fun b instr => h.hash instr b) {}).data

/-- The fields in front of the operands. -/
inductive Head
  | nothing
  | opcode (opcode : BhOpcode)
  | scalar (isScalar : Bool)
  | scalarShape (isScalar : Bool) (shapeId : ℕ)
  deriving DecidableEq, Repr

/-- An operand that is no constant: its id, and where they are hashed its rank and shape id. -/
structure Operand where
  id : ℕ
  shape : Option (ℕ × ℕ)
  deriving DecidableEq, Repr

/-- The axis of a sweep, behind its rank where that is hashed. -/
structure Sweep where
  rank : Option ℕ
  axis : ℤ
  deriving DecidableEq, Repr

structure Fields where
  head : Head
  operands : List Operand
  sweep : Option Sweep
  deriving DecidableEq, Repr

/-- The ids that were given. -/
structure Tables where
  views : Seqset BhView := {}
  shapes : Seqset (List ℕ) := {}

def Tables.shapeId (t : Tables) (v : BhView) : ℕ × Tables :=
  ((t.shapes.insert v.shape).2.1, { t with shapes := (t.shapes.insert v.shape).1 })

def operandField (h : InstrHash) (v : BhView) (t : Tables) : Operand × Tables :=
  let id := (t.views.insert v).2.1
  let t := { t with views := (t.views.insert v).1 }
  match h with
  | .opcodeOpidShapeidSweepdim => (⟨id, some (v.ndim, (t.shapeId v).1)⟩, (t.shapeId v).2)
  | _ => (⟨id, none⟩, t)

/-- Constants are ignored. -/
def operandFields (h : InstrHash) : List BhView → Tables → List Operand × Tables
  | [], t => ([], t)
  | v :: vs, t =>
    if bhIsConstant v then operandFields h vs t
    else
      let (o, t) := operandField h v t
      let (os, t) := operandFields h vs t
      (o :: os, t)

def headField (h : InstrHash) (instr : BhInstruction) (t : Tables) : Head × Tables :=
  match h with
  | .opcodeOpidShapeidSweepdim => (.opcode instr.opcode, t)
  | .scalarOpidSweepdim => (.scalar (scalarKernel instr), t)
  | .scalarShapeidOpidSweepdim =>
    (.scalarShape (scalarKernel instr) (t.shapeId (sweptOperand instr)).1, (t.shapeId (sweptOperand instr)).2)
  | _ => (.nothing, t)

def sweepField (h : InstrHash) (instr : BhInstruction) : Option Sweep :=
  if bhOpcodeIsSweep instr.opcode then
    match h with
    | .opid => none
    | .opcodeOpidShapeidSweepdim => some ⟨none, instr.constant.int64⟩
    | _ => some ⟨some instr.operand1.ndim, instr.constant.int64⟩
  else none

def fields (h : InstrHash) (instr : BhInstruction) (t : Tables) : Fields × Tables :=
  let (head, t) := headField h instr t
  let (operands, t) := operandFields h instr.operands t
  (⟨head, operands, sweepField h instr⟩, t)

/-- The hashed fields of a list of instructions. -/
def allFields (h : InstrHash) : List BhInstruction → Tables → List Fields
  | [], _ => []
  | instr :: l, t => (fields h instr t).1 :: allFields h l (fields h instr t).2

/-! ## Their bytes -/

def Head.bytes : Head → List UInt8
  | .nothing => []
  | .opcode op => word (opcodeId op)
  | .scalar isScalar => [if isScalar then 1 else 0]
  | .scalarShape isScalar shapeId => [if isScalar then 1 else 0] ++ word shapeId

def Operand.bytes (o : Operand) : List UInt8 :=
  match o.shape with
  | none => word o.id
  | some (ndim, shapeId) => word o.id ++ word ndim ++ word shapeId ++ opSep

/-- What stands behind the operands. -/
def tailBytes (h : InstrHash) (s : Option Sweep) : List UInt8 :=
  (match h with
    | .opid | .opcodeOpidShapeidSweepdim => []
    | _ => opSep) ++
  (match s with
    | none => []
    | some s => (s.rank.elim [] fun ndim => word ndim) ++ word s.axis) ++ instSep

def Fields.bytes (h : InstrHash) (f : Fields) : List UInt8 :=
  f.head.bytes ++ (f.operands.flatMap Operand.bytes ++ tailBytes h f.sweep)

/-! ## What the functions write -/

/-- The hash in the middle of a batch. -/
def Tables.hash (t : Tables) (data : List UInt8) : BatchHash := ⟨t.views, t.shapes, data⟩

theorem foldl_writeViewId {h : InstrHash} (hh : h ≠ .opcodeOpidShapeidSweepdim) (vs : List BhView) (t : Tables)
    (data : List UInt8) :
    vs.foldl (fun b v => if bhIsConstant v then b else b.writeViewId v) (t.hash data) =
      (operandFields h vs t).2.hash (data ++ (operandFields h vs t).1.flatMap Operand.bytes) := by
  induction vs generalizing t data with
  | nil => simp [operandFields]
  | cons v vs ih =>
    rw [List.foldl_cons, operandFields]
    by_cases hv : bhIsConstant v = true
    · rw [if_pos hv, if_pos hv, ih]
    · have hfield : operandField h v t = (⟨(t.views.insert v).2.1, none⟩, { t with views := (t.views.insert v).1 }) := by
        cases h <;> first | rfl | exact absurd rfl hh
      rw [if_neg hv, if_neg hv, hfield]
      dsimp only
      rw [List.flatMap_cons, ← List.append_assoc]
      exact ih { t with views := (t.views.insert v).1 } (data ++ word (t.views.insert v).2.1)

theorem foldl_writeOperand (vs : List BhView) (t : Tables) (data : List UInt8) :
    vs.foldl (fun b v => if bhIsConstant v then b
      else (((b.writeViewId v).write (word v.ndim)).writeShapeId v).write opSep) (t.hash data) =
      (operandFields .opcodeOpidShapeidSweepdim vs t).2.hash
        (data ++ (operandFields .opcodeOpidShapeidSweepdim vs t).1.flatMap Operand.bytes) := by
  induction vs generalizing t data with
  | nil => simp [operandFields]
  | cons v vs ih =>
    rw [List.foldl_cons, operandFields]
    by_cases hv : bhIsConstant v = true
    · rw [if_pos hv, if_pos hv, ih]
    · rw [if_neg hv, if_neg hv]
      dsimp only
      rw [List.flatMap_cons, ← List.append_assoc, ← ih]
      simp only [operandField, Operand.bytes, Tables.hash, Tables.shapeId, writeViewId, writeShapeId, BatchHash.write,
        List.append_assoc]

theorem hashOpidSweepdim_eq {h : InstrHash} (hh : h ≠ .opcodeOpidShapeidSweepdim) (hopid : h ≠ .opid) (instr : BhInstruction)
    (t : Tables) (data : List UInt8) :
    hashOpidSweepdim instr (t.hash data) = (operandFields h instr.operands t).2.hash
      (data ++ ((operandFields h instr.operands t).1.flatMap Operand.bytes ++ tailBytes h (sweepField h instr))) := by
  rw [hashOpidSweepdim, writeOperandIds, foldl_writeViewId hh]
  cases hsweep : bhOpcodeIsSweep instr.opcode with
  | true =>
    cases h <;> first
      | exact absurd rfl hh
      | exact absurd rfl hopid
      | simp [writeSweep, sweepField, tailBytes, hsweep, Tables.hash, BatchHash.write]
  | false =>
    cases h <;> first
      | exact absurd rfl hh
      | exact absurd rfl hopid
      | simp [writeSweep, sweepField, tailBytes, hsweep, Tables.hash, BatchHash.write]

theorem hash_eq (h : InstrHash) (instr : BhInstruction) (t : Tables) (data : List UInt8) :
    h.hash instr (t.hash data) = (fields h instr t).2.hash (data ++ (fields h instr t).1.bytes h) := by
  cases h with
  | opcodeOpidShapeidSweepdim =>
    rw [InstrHash.hash, hashOpcodeOpidShapeidSweepdim, show (t.hash data).write (word (opcodeId instr.opcode)) = t.hash (data ++ word (opcodeId instr.opcode)) from rfl,
      foldl_writeOperand]
    cases hsweep : bhOpcodeIsSweep instr.opcode with
    | true =>
      simp [fields, headField, Fields.bytes, Head.bytes, sweepField, tailBytes, hsweep, Tables.hash, BatchHash.write]
    | false =>
      simp [fields, headField, Fields.bytes, Head.bytes, sweepField, tailBytes, hsweep, Tables.hash, BatchHash.write]
  | opidSweepdim =>
    rw [InstrHash.hash, hashOpidSweepdim_eq (h := .opidSweepdim) (by decide) (by decide)]
    rfl
  | scalarOpidSweepdim =>
    rw [InstrHash.hash, hashScalarOpidSweepdim, writeScalar]
    refine (hashOpidSweepdim_eq (h := .scalarOpidSweepdim) (by decide) (by decide) instr t _).trans ?_
    rw [List.append_assoc]
    rfl
  | scalarShapeidOpidSweepdim =>
    have hstart : (writeScalar instr (t.hash data)).writeShapeId (sweptOperand instr) = (t.shapeId (sweptOperand instr)).2.hash
        (data ++ [if scalarKernel instr then 1 else 0] ++ word (t.shapeId (sweptOperand instr)).1) := rfl
    rw [InstrHash.hash, hashScalarShapeidOpidSweepdim, hstart,
      hashOpidSweepdim_eq (h := .scalarShapeidOpidSweepdim) (by decide) (by decide), List.append_assoc, List.append_assoc]
    rfl
  | opid =>
    rw [InstrHash.hash, hashOpid, writeOperandIds, foldl_writeViewId (h := .opid) (by decide)]
    simp [fields, headField, Fields.bytes, Head.bytes, sweepField, tailBytes, Tables.hash, BatchHash.write]

theorem hashString_eq (h : InstrHash) (l : List BhInstruction) :
    hashString h l = (allFields h l {}).flatMap (Fields.bytes h) := by
  have hrun : ∀ (l : List BhInstruction) (t : Tables) (data : List UInt8),
      (l.foldl (fun b instr => h.hash instr b) (t.hash data)).data = data ++ (allFields h l t).flatMap (Fields.bytes h) := by
    intro l
    induction l with
    | nil => simp [allFields, Tables.hash]
    | cons instr l ih =>
      intro t data
      rw [List.foldl_cons, hash_eq, ih, allFields, List.flatMap_cons, List.append_assoc]
  exact hrun l {} []

/-! ## Fields that end by themselves -/

/-- `BH_MAXDIM`. -/
def bhMaxdim : ℕ := 16

/-- What a `bh_instruction` can hold. -/
structure Storable (i : BhInstruction) : Prop where
  ndim : ∀ v ∈ [i.operand0, i.operand1, i.operand2], v.ndim ≤ bhMaxdim
  opcode : opcodeId i.opcode < 2 ^ 63
  axis : -2 ^ 63 ≤ i.constant.int64 ∧ i.constant.int64 < 2 ^ 63

/-- The bytes of the three views of a `bh_instruction`. -/
def sizeofOperands : ℕ := 3 * (3 * 8 + 2 * bhMaxdim * 8)

/-- What a vector of instructions can be. -/
structure InMemory (l : List BhInstruction) : Prop where
  storable : ∀ i ∈ l, Storable i
  bytes : l.length * sizeofOperands < 2 ^ 64

/-- Below the separators. -/
def IsId (n : ℕ) : Prop := n + 2 < 2 ^ 64

def HeadFits : InstrHash → Head → Prop
  | .opcodeOpidShapeidSweepdim, .opcode op => opcodeId op < 2 ^ 63
  | .scalarOpidSweepdim, .scalar _ => True
  | .scalarShapeidOpidSweepdim, .scalarShape _ shapeId => IsId shapeId
  | .opidSweepdim, .nothing | .opid, .nothing => True
  | _, _ => False

def OperandFits (h : InstrHash) (o : Operand) : Prop :=
  IsId o.id ∧ if h = .opcodeOpidShapeidSweepdim then ∃ s, o.shape = some s ∧ s.1 ≤ bhMaxdim ∧ IsId s.2 else o.shape = none

/-- Whether there is a sweep is in the head, or can be seen from the separators. -/
def SweepFits (h : InstrHash) (head : Head) (s : Option Sweep) : Prop :=
  (∀ op, head = .opcode op → s.isSome = bhOpcodeIsSweep op) ∧ (h = .opid → s = none) ∧
  ∀ x ∈ s, (-2 ^ 63 ≤ x.axis ∧ x.axis < 2 ^ 63) ∧
    if h = .opcodeOpidShapeidSweepdim then x.rank = none else ∃ n ≤ bhMaxdim, x.rank = some n

def Fits (h : InstrHash) (f : Fields) : Prop :=
  HeadFits h f.head ∧ (∀ o ∈ f.operands, OperandFits h o) ∧ SweepFits h f.head f.sweep

theorem word_eq (n : ℤ) : word n = Bytes.ofNat 8 (n % 2 ^ 64).toNat := by
  refine List.map_congr_left fun i _ => ?_
  apply UInt8.toNat_inj.mp
  simp

@[simp] theorem length_word (n : ℤ) : (word n).length = 8 := by simp [word]

theorem word_append_inj {n m : ℤ} {r r' : List UInt8} (h : word n ++ r = word m ++ r') :
    n % 2 ^ 64 = m % 2 ^ 64 ∧ r = r' := by
  obtain ⟨hword, hrest⟩ := List.append_inj h (by simp)
  rw [word_eq, word_eq] at hword
  have hnat := congrArg Bytes.toNat hword
  rw [Bytes.toNat_ofNat_of_lt (by omega), Bytes.toNat_ofNat_of_lt (by omega)] at hnat
  exact ⟨by omega, hrest⟩

/-- The opcodes of the table. -/
def opcodes : List BhOpcode :=
  [.add, .subtract, .multiply, .divide, .power, .absolute, .greater, .greaterEqual, .less, .lessEqual, .equal,
   .notEqual, .logicalAnd, .logicalOr, .logicalXor, .logicalNot, .maximum, .minimum, .bitwiseAnd, .bitwiseOr,
   .bitwiseXor, .invert, .leftShift, .rightShift, .cos, .sin, .tan, .cosh, .sinh, .tanh, .arcsin, .arccos, .arctan,
   .arcsinh, .arccosh, .arctanh, .arctan2, .exp, .exp2, .expm1, .log, .log2, .log10, .log1p, .sqrt, .ceil, .trunc,
   .floor, .rint, .mod, .isnan, .isinf, .identity, .discard, .free, .sync, .none, .addReduce, .multiplyReduce,
   .minimumReduce, .maximumReduce, .logicalAndReduce, .bitwiseAndReduce, .logicalOrReduce, .bitwiseOrReduce,
   .logicalXorReduce, .bitwiseXorReduce, .random, .range, .real, .imag, .addAccumulate, .multiplyAccumulate, .sign,
   .matmul, .gather, .scatter]

theorem mem_opcodes (op : BhOpcode) : (op ∈ opcodes ∧ opcodeId op ≤ bhMaxOpcodeId) ∨
    ∃ id, op = .ext id ∧ opcodeId op = bhMaxOpcodeId + 1 + id := by
  cases op with
  | ext id => exact Or.inr ⟨id, rfl, rfl⟩
  | _ => exact Or.inl ⟨by decide, by decide⟩

/-- No two opcodes have one number. -/
theorem opcodeId_inj {a b : BhOpcode} (h : opcodeId a = opcodeId b) : a = b := by
  have hnodup : (opcodes.map opcodeId).Nodup := by decide
  rcases mem_opcodes a with ⟨ha, hla⟩ | ⟨i, rfl, ha⟩
  · rcases mem_opcodes b with ⟨hb, _⟩ | ⟨j, rfl, hb⟩
    · exact List.inj_on_of_nodup_map hnodup ha hb h
    · omega
  · rcases mem_opcodes b with ⟨_, hlb⟩ | ⟨j, rfl, hb⟩
    · omega
    · obtain rfl : i = j := by omega
      rfl

theorem flag_inj {a b : Bool} (h : (if a then 1 else 0 : UInt8) = if b then 1 else 0) : a = b := by
  cases a <;> cases b <;> first | rfl | exact absurd h (by decide)

theorem delimits_head (h : InstrHash) : Delimits Head.bytes (HeadFits h) := by
  intro a a' ha ha' r r' heq
  cases h with
  | opcodeOpidShapeidSweepdim =>
    cases a <;> cases a' <;> first | exact absurd ha id | exact absurd ha' id | skip
    rename_i op op'
    obtain ⟨hid, hrest⟩ := word_append_inj heq
    have hlt : opcodeId op < 2 ^ 63 := ha
    have hlt' : opcodeId op' < 2 ^ 63 := ha'
    exact ⟨congrArg Head.opcode (opcodeId_inj (by omega)), hrest⟩
  | scalarOpidSweepdim =>
    cases a <;> cases a' <;> first | exact absurd ha id | exact absurd ha' id | skip
    rename_i b b'
    obtain ⟨hflag, hrest⟩ := List.cons.inj heq
    exact ⟨congrArg Head.scalar (flag_inj hflag), hrest⟩
  | scalarShapeidOpidSweepdim =>
    cases a <;> cases a' <;> first | exact absurd ha id | exact absurd ha' id | skip
    rename_i b id b' id'
    simp only [Head.bytes, List.cons_append, List.nil_append] at heq
    obtain ⟨hflag, heq⟩ := List.cons.inj heq
    obtain ⟨hid, hrest⟩ := word_append_inj heq
    have hlt : id + 2 < 2 ^ 64 := ha
    have hlt' : id' + 2 < 2 ^ 64 := ha'
    obtain rfl : id = id' := by omega
    exact ⟨by rw [flag_inj hflag], hrest⟩
  | opidSweepdim =>
    cases a <;> cases a' <;> first | exact absurd ha id | exact absurd ha' id | exact ⟨rfl, heq⟩
  | opid =>
    cases a <;> cases a' <;> first | exact absurd ha id | exact absurd ha' id | exact ⟨rfl, heq⟩

theorem delimits_operand (h : InstrHash) : Delimits Operand.bytes (OperandFits h) := by
  intro o o' ho ho' r r' heq
  obtain ⟨id, shape⟩ := o
  obtain ⟨id', shape'⟩ := o'
  obtain ⟨hid, hshape⟩ := ho
  obtain ⟨hid', hshape'⟩ := ho'
  unfold IsId at hid hid'
  dsimp only at hid hid' hshape hshape'
  by_cases hh : h = .opcodeOpidShapeidSweepdim
  · rw [if_pos hh] at hshape hshape'
    obtain ⟨⟨ndim, shapeId⟩, rfl, hndim, hs⟩ := hshape
    obtain ⟨⟨ndim', shapeId'⟩, rfl, hndim', hs'⟩ := hshape'
    unfold bhMaxdim at hndim hndim'
    unfold IsId at hs hs'
    dsimp only at hndim hndim' hs hs'
    simp only [Operand.bytes, List.append_assoc] at heq
    obtain ⟨h1, hbehind⟩ := word_append_inj heq
    obtain ⟨h2, hbehind'⟩ := word_append_inj hbehind
    obtain ⟨h3, hrest⟩ := word_append_inj hbehind'
    obtain rfl : id = id' := by omega
    obtain rfl : ndim = ndim' := by omega
    obtain rfl : shapeId = shapeId' := by omega
    exact ⟨rfl, List.append_cancel_left hrest⟩
  · rw [if_neg hh] at hshape hshape'
    subst hshape hshape'
    obtain ⟨h1, hrest⟩ := word_append_inj heq
    dsimp only at h1
    obtain rfl : id = id' := by omega
    exact ⟨rfl, hrest⟩

/-- The sweep of the function with opcodes. -/
theorem delimits_tail_opcode (op : BhOpcode) : Delimits (tailBytes .opcodeOpidShapeidSweepdim)
    (SweepFits .opcodeOpidShapeidSweepdim (.opcode op)) := by
  intro s s' hs hs' r r' heq
  have hsome := (hs.1 op rfl).trans (hs'.1 op rfl).symm
  cases s with
  | none =>
    cases s' with
    | none => exact ⟨rfl, List.append_cancel_left heq⟩
    | some x' => cases hsome
  | some x =>
    cases s' with
    | none => cases hsome
    | some x' =>
      obtain ⟨rank, axis⟩ := x
      obtain ⟨rank', axis'⟩ := x'
      obtain ⟨haxis, hrank⟩ := hs.2.2 _ rfl
      obtain ⟨haxis', hrank'⟩ := hs'.2.2 _ rfl
      rw [if_pos rfl] at hrank hrank'
      dsimp only at haxis haxis' hrank hrank'
      subst hrank hrank'
      simp only [tailBytes, Option.elim_none, List.nil_append, List.append_assoc] at heq
      obtain ⟨h1, hrest⟩ := word_append_inj heq
      obtain rfl : axis = axis' := by omega
      exact ⟨rfl, List.append_cancel_left hrest⟩

/-- The rank of a sweep cannot be taken for `inst_sep`. -/
theorem delimits_tail_opid {h : InstrHash} (hh : h ≠ .opcodeOpidShapeidSweepdim) (head : Head) :
    Delimits (tailBytes h) (SweepFits h head) := by
  intro s s' hs hs' r r' heq
  have hopid : h = .opid → s = s' := fun e => (hs.2.1 e).trans (hs'.2.1 e).symm
  simp only [tailBytes, List.append_assoc] at heq
  have heq := List.append_cancel_left heq
  cases s with
  | none =>
    cases s' with
    | none => exact ⟨rfl, List.append_cancel_left heq⟩
    | some x' =>
      obtain ⟨rank', axis'⟩ := x'
      obtain ⟨_, hrank'⟩ := hs'.2.2 _ rfl
      rw [if_neg hh] at hrank'
      obtain ⟨n, hn, hrank'⟩ := hrank'
      dsimp only at hrank'
      subst hrank'
      simp only [Option.elim_some, List.append_assoc, List.nil_append] at heq
      have h1 := (word_append_inj heq).1
      unfold bhMaxdim at hn
      omega
  | some x =>
    obtain ⟨rank, axis⟩ := x
    obtain ⟨haxis, hrank⟩ := hs.2.2 _ rfl
    rw [if_neg hh] at hrank
    obtain ⟨n, hn, hrank⟩ := hrank
    dsimp only at haxis hrank
    subst hrank
    unfold bhMaxdim at hn
    cases s' with
    | none =>
      simp only [Option.elim_some, List.append_assoc, List.nil_append] at heq
      have h1 := (word_append_inj heq).1
      omega
    | some x' =>
      obtain ⟨rank', axis'⟩ := x'
      obtain ⟨haxis', hrank'⟩ := hs'.2.2 _ rfl
      rw [if_neg hh] at hrank'
      obtain ⟨n', hn', hrank'⟩ := hrank'
      dsimp only at haxis' hrank'
      subst hrank'
      unfold bhMaxdim at hn'
      simp only [Option.elim_some, List.append_assoc] at heq
      obtain ⟨h1, hbehind⟩ := word_append_inj heq
      obtain ⟨h2, hrest⟩ := word_append_inj hbehind
      obtain rfl : n = n' := by omega
      obtain rfl : axis = axis' := by omega
      exact ⟨rfl, List.append_cancel_left hrest⟩

/-- No operand begins like what stands behind the operands. -/
theorem operand_ne_tail (h : InstrHash) (head : Head) {o : Operand} {s : Option Sweep} (ho : OperandFits h o)
    (hs : SweepFits h head s) (r r' : List UInt8) : o.bytes ++ r ≠ tailBytes h s ++ r' := by
  intro heq
  obtain ⟨id, shape⟩ := o
  obtain ⟨hid, hshape⟩ := ho
  unfold IsId at hid
  dsimp only at hid hshape
  -- an id is no separator, and neither is a rank
  have hsep : ∀ r r', word id ++ r ≠ opSep ++ r' ∧ word id ++ r ≠ instSep ++ r' := by
    intro r r'
    constructor
    · intro heq
      have := (word_append_inj heq).1
      omega
    · intro heq
      have := (word_append_inj heq).1
      omega
  by_cases hh : h = .opcodeOpidShapeidSweepdim
  · rw [if_pos hh] at hshape
    obtain ⟨⟨ndim, shapeId⟩, rfl, hndim, -⟩ := hshape
    unfold bhMaxdim at hndim
    dsimp only at hndim
    subst hh
    simp only [Operand.bytes, List.append_assoc] at heq
    cases s with
    | none => exact (hsep _ _).2 heq
    | some x =>
      obtain ⟨rank, axis⟩ := x
      have hrank := (hs.2.2 _ rfl).2
      rw [if_pos rfl] at hrank
      dsimp only at hrank
      subst hrank
      simp only [tailBytes, Option.elim_none, List.nil_append, List.append_assoc] at heq
      have h2 := (word_append_inj (word_append_inj heq).2).1
      omega
  · rw [if_neg hh] at hshape
    subst hshape
    cases h with
    | opcodeOpidShapeidSweepdim => exact hh rfl
    | opid =>
      obtain rfl := hs.2.1 rfl
      exact (hsep _ _).2 heq
    | _ =>
      simp only [tailBytes, List.append_assoc] at heq
      exact (hsep _ _).1 heq

theorem delimits_bytes (h : InstrHash) : Delimits (Fields.bytes h) (Fits h) := by
  have htail : ∀ head, HeadFits h head → Delimits (tailBytes h) (SweepFits h head) := by
    intro head hhead
    by_cases hh : h = .opcodeOpidShapeidSweepdim
    · subst hh
      cases head with
      | opcode op => exact delimits_tail_opcode op
      | _ => exact absurd hhead id
    · exact delimits_tail_opid hh head
  have hpair := (delimits_head h).pair fun head hhead =>
    (delimits_operand h).list (htail head hhead) fun o s ho hs => operand_ne_tail h head ho hs
  intro f f' hf hf' r r' heq
  obtain ⟨hfields, hrest⟩ := hpair (f.head, f.operands, f.sweep) (f'.head, f'.operands, f'.sweep) hf hf' r r' heq
  obtain ⟨hhead, hbehind⟩ := Prod.mk.inj hfields
  obtain ⟨hoperands, hsweep⟩ := Prod.mk.inj hbehind
  obtain ⟨head, operands, sweep⟩ := f
  obtain ⟨head', operands', sweep'⟩ := f'
  dsimp only at hhead hoperands hsweep
  subst hhead hoperands hsweep
  exact ⟨rfl, hrest⟩

theorem bytes_ne_nil (h : InstrHash) (f : Fields) : f.bytes h ≠ [] := by
  intro hnil
  have hlen := congrArg List.length hnil
  simp [Fields.bytes, tailBytes, instSep] at hlen

/-! ## The fields of a batch -/

/-- Every id that was given lies below the next one. -/
def Counted {α : Type} (s : Seqset α) : Prop := ∀ p ∈ s.map, p.2 < s.maxid

theorem Counted.insert {α : Type} [DecidableEq α] {s : Seqset α} (h : Counted s) (v : α) :
    Counted (s.insert v).1 ∧ (s.insert v).2.1 < (s.insert v).1.maxid ∧ (s.insert v).1.maxid ≤ s.maxid + 1 := by
  unfold Seqset.insert
  cases hf : s.find v with
  | some id =>
    unfold Seqset.find at hf
    obtain ⟨l₁, l₂, heq, _⟩ := List.lookup_eq_some_iff.mp hf
    exact ⟨h, h (v, id) (by rw [heq]; simp), Nat.le_succ _⟩
  | none =>
    refine ⟨fun p hp => ?_, Nat.lt_succ_self _, le_rfl⟩
    rcases List.mem_append.mp hp with hp | hp
    · exact Nat.lt_succ_of_lt (h p hp)
    · rw [List.mem_singleton.mp hp]
      exact Nat.lt_succ_self _

/-- At most `n` ids of each kind were given. -/
structure Tables.Within (t : Tables) (n : ℕ) : Prop where
  views : Counted t.views
  shapes : Counted t.shapes
  viewIds : t.views.maxid ≤ n
  shapeIds : t.shapes.maxid ≤ n

theorem Tables.Within.mono {t : Tables} {n m : ℕ} (h : t.Within n) (hle : n ≤ m) : t.Within m :=
  { h with viewIds := h.viewIds.trans hle, shapeIds := h.shapeIds.trans hle }

theorem Tables.Within.shapeId {t : Tables} {n : ℕ} (h : t.Within n) (v : BhView) :
    (t.shapeId v).1 < n + 1 ∧ (t.shapeId v).2.Within (n + 1) := by
  obtain ⟨hcounted, hlt, hle⟩ := h.shapes.insert v.shape
  have hids := h.shapeIds
  have hids' : (t.shapes.insert v.shape).1.maxid ≤ n + 1 := by omega
  exact ⟨hlt.trans_le hids', { h with shapes := hcounted, viewIds := h.viewIds.trans (Nat.le_succ n), shapeIds := hids' }⟩

theorem operandField_spec (h : InstrHash) {v : BhView} (hv : v.ndim ≤ bhMaxdim) {t : Tables} {n : ℕ} (ht : t.Within n)
    (hn : n + 3 ≤ 2 ^ 64 - 2) : OperandFits h (operandField h v t).1 ∧ (operandField h v t).2.Within (n + 1) := by
  obtain ⟨hcounted, hlt, hle⟩ := ht.views.insert v
  have hids := ht.viewIds
  have hids' : (t.views.insert v).1.maxid ≤ n + 1 := by omega
  have hviews : Tables.Within { t with views := (t.views.insert v).1 } (n + 1) :=
    { ht with views := hcounted, viewIds := hids', shapeIds := ht.shapeIds.trans (Nat.le_succ n) }
  have hid : IsId (t.views.insert v).2.1 := by
    unfold IsId
    omega
  obtain ⟨hscounted, hslt, hsle⟩ := ht.shapes.insert v.shape
  have hsids := ht.shapeIds
  cases h with
  | opcodeOpidShapeidSweepdim =>
    refine ⟨⟨hid, ?_⟩, { hviews with shapes := hscounted, shapeIds := ?_ }⟩
    · rw [if_pos rfl]
      refine ⟨_, rfl, hv, ?_⟩
      show (t.shapes.insert v.shape).2.1 + 2 < 2 ^ 64
      omega
    · show (t.shapes.insert v.shape).1.maxid ≤ n + 1
      omega
  | _ => exact ⟨⟨hid, rfl⟩, hviews⟩

theorem operandFields_spec (h : InstrHash) {vs : List BhView} (hvs : ∀ v ∈ vs, v.ndim ≤ bhMaxdim) {t : Tables} {n : ℕ}
    (ht : t.Within n) (hn : n + vs.length + 2 ≤ 2 ^ 64 - 2) : (∀ o ∈ (operandFields h vs t).1, OperandFits h o) ∧
      (operandFields h vs t).2.Within (n + vs.length) := by
  induction vs generalizing t n with
  | nil => exact ⟨by simp [operandFields], ht⟩
  | cons v vs ih =>
    rw [List.forall_mem_cons] at hvs
    rw [List.length_cons] at hn ⊢
    rw [operandFields]
    split_ifs with hconst
    · obtain ⟨hfits, hwithin⟩ := ih hvs.2 ht (by omega)
      exact ⟨hfits, hwithin.mono (by omega)⟩
    · obtain ⟨hfit, hnext⟩ := operandField_spec h hvs.1 ht (by omega)
      obtain ⟨hfits, hwithin⟩ := ih hvs.2 hnext (by omega)
      refine ⟨?_, hwithin.mono (by omega)⟩
      dsimp only
      rw [List.forall_mem_cons]
      exact ⟨hfit, hfits⟩

theorem sweepField_fits (h : InstrHash) {instr : BhInstruction} (hi : Storable instr) {head : Head}
    (hhead : ∀ op, head = .opcode op → h = .opcodeOpidShapeidSweepdim ∧ op = instr.opcode) :
    SweepFits h head (sweepField h instr) := by
  have hndim := hi.ndim instr.operand1 (by simp)
  refine ⟨fun op hop => ?_, fun hopid => ?_, fun x hx => ?_⟩
  · obtain ⟨rfl, rfl⟩ := hhead op hop
    cases hsweep : bhOpcodeIsSweep instr.opcode <;> simp [sweepField, hsweep]
  · subst hopid
    simp [sweepField]
  · cases hsweep : bhOpcodeIsSweep instr.opcode with
    | false => simp [sweepField, hsweep] at hx
    | true =>
      cases h with
      | opid => simp [sweepField] at hx
      | opcodeOpidShapeidSweepdim =>
        obtain rfl : x = ⟨none, instr.constant.int64⟩ := by simpa [sweepField, hsweep, eq_comm] using hx
        rw [if_pos rfl]
        exact ⟨hi.axis, rfl⟩
      | _ =>
        obtain rfl : x = ⟨some instr.operand1.ndim, instr.constant.int64⟩ := by
          simpa [sweepField, hsweep, eq_comm] using hx
        rw [if_neg (by decide)]
        exact ⟨hi.axis, instr.operand1.ndim, hndim, rfl⟩

theorem fields_spec (h : InstrHash) {instr : BhInstruction} (hi : Storable instr) {t : Tables} {n : ℕ} (ht : t.Within n)
    (hn : n + 6 ≤ 2 ^ 64 - 2) : Fits h (fields h instr t).1 ∧ (fields h instr t).2.Within (n + 4) := by
  have hoperands : ∀ v ∈ instr.operands, v.ndim ≤ bhMaxdim := fun v hv => hi.ndim v (List.mem_of_mem_take hv)
  have hlen : instr.operands.length ≤ 3 := by
    unfold BhInstruction.operands
    rw [List.length_take]
    exact min_le_right _ _
  have hhead : HeadFits h (headField h instr t).1 ∧ (headField h instr t).2.Within (n + 1) ∧
      ∀ op, (headField h instr t).1 = .opcode op → h = .opcodeOpidShapeidSweepdim ∧ op = instr.opcode := by
    cases h with
    | opcodeOpidShapeidSweepdim => exact ⟨hi.opcode, ht.mono (Nat.le_succ n), fun op hop => ⟨rfl, (Head.opcode.inj hop).symm⟩⟩
    | scalarShapeidOpidSweepdim =>
      obtain ⟨hlt, hwithin⟩ := ht.shapeId (sweptOperand instr)
      refine ⟨?_, hwithin, fun op hop => by cases hop⟩
      show (t.shapeId (sweptOperand instr)).1 + 2 < 2 ^ 64
      omega
    | _ => exact ⟨trivial, ht.mono (Nat.le_succ n), fun op hop => by cases hop⟩
  obtain ⟨hfits, hwithin, hop⟩ := hhead
  obtain ⟨hos, hend⟩ := operandFields_spec h hoperands hwithin (by omega)
  exact ⟨⟨hfits, hos, sweepField_fits h hi hop⟩, hend.mono (by omega)⟩

theorem allFields_fits (h : InstrHash) {l : List BhInstruction} (hl : InMemory l) : ∀ f ∈ allFields h l {}, Fits h f := by
  have hrun : ∀ (l : List BhInstruction) (t : Tables) (n : ℕ), (∀ i ∈ l, Storable i) → t.Within n →
      n + 4 * l.length + 2 ≤ 2 ^ 64 - 2 → ∀ f ∈ allFields h l t, Fits h f := by
    intro l
    induction l with
    | nil => exact fun t n _ _ _ f hf => by cases hf
    | cons instr l ih =>
      intro t n hl ht hn
      rw [List.forall_mem_cons] at hl
      rw [List.length_cons] at hn
      obtain ⟨hfits, hnext⟩ := fields_spec h hl.1 ht (by omega)
      rw [allFields, List.forall_mem_cons]
      exact ⟨hfits, ih _ (n + 4) hl.2 hnext (by omega)⟩
  have hbytes := hl.bytes
  have hempty : Tables.Within {} 0 := ⟨fun p hp => (List.not_mem_nil hp).elim, fun p hp => (List.not_mem_nil hp).elim, le_rfl, le_rfl⟩
  refine hrun l {} 0 hl.storable hempty ?_
  unfold sizeofOperands bhMaxdim at hbytes
  omega

theorem length_allFields (h : InstrHash) (l : List BhInstruction) (t : Tables) : (allFields h l t).length = l.length := by
  induction l generalizing t with
  | nil => rfl
  | cons instr l ih => rw [allFields, List.length_cons, ih, List.length_cons]

/-- Two batches with one string have as many instructions and the same fields, whichever of the
functions hashes them. -/
theorem hashString_decodable (h : InstrHash) (l l' : List BhInstruction) (hl : InMemory l) (hl' : InMemory l')
    (heq : hashString h l = hashString h l') : l.length = l'.length ∧ allFields h l {} = allFields h l' {} := by
  rw [hashString_eq, hashString_eq] at heq
  have hfields := (delimits_bytes h).flatMap_inj (fun f _ => bytes_ne_nil h f) (allFields_fits h hl) (allFields_fits h hl') heq
  refine ⟨?_, hfields⟩
  rw [← length_allFields h l {}, hfields, length_allFields]

instance (i : BhInstruction) : Decidable (Storable i) :=
  decidable_of_iff ((∀ v ∈ [i.operand0, i.operand1, i.operand2], v.ndim ≤ bhMaxdim) ∧ opcodeId i.opcode < 2 ^ 63 ∧
    -2 ^ 63 ≤ i.constant.int64 ∧ i.constant.int64 < 2 ^ 63) ⟨fun h => ⟨h.1, h.2.1, h.2.2⟩, fun h => ⟨h.1, h.2, h.3⟩⟩

theorem hashString_decodable_separateVectors : separateVectors.length = otherVectors.length ∧
    allFields .opcodeOpidShapeidSweepdim separateVectors {} = allFields .opcodeOpidShapeidSweepdim otherVectors {} :=
  hashString_decodable .opcodeOpidShapeidSweepdim separateVectors otherVectors ⟨by decide, by decide⟩
    ⟨by decide, by decide⟩ (by decide +kernel)

end Bohrium.HashString
