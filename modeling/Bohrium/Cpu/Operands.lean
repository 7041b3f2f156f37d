import Bohrium.Cpu.Reduction
import Bohrium.Engine.SymbolTable
import Bohrium.Library.Intern
import Mathlib.Data.Rat.Defs
import Mathlib.Logic.Function.Basic

/-! # Operands of the CPU engine

`SymbolTable::map_operand` (`ve/cpu/symbol_table.cpp`) and `equivalent` (`ve/cpu/utils.cpp`), with
constants. An entry of the table does not own its shape and strides: it points into the instruction they
come from, and for a constant the engine writes through these pointers. The data of a constant is read
through the entry itself, whose `data` is the address of its own `const_data`. -/
namespace Bohrium.Cpu
open Engine Intern
set_option autoImplicit false

/-! ## Constants -/

/-- A float up to the sign of zero, which `==` does not see. -/
inductive Fp
  | nan
  | inf (negative : Bool)
  | fin (value : ℚ)
  deriving DecidableEq, Repr

/-- `==` on floats. -/
def Fp.eq : Fp → Fp → Bool
  | .nan, _ => false
  | one, other => one == other

/-- The values of a type. -/
def Value : BhType → Type
  | .float32 | .float64 => Fp
  | .complex64 | .complex128 => Fp × Fp
  | type => BitVec (bits type)

/-- The `switch` of `equivalent`. -/
def valueEq : (type : BhType) → Value type → Value type → Bool
  | .bool, one, other => decide (one.toNat = other.toNat)
  | .int8, one, other => decide (one.toInt = other.toInt)
  | .int16, one, other => decide (one.toInt = other.toInt)
  | .int32, one, other => decide (one.toInt = other.toInt)
  | .int64, one, other => decide (one.toInt = other.toInt)
  | .uint8, one, other => decide (one.toNat = other.toNat)
  | .uint16, one, other => decide (one.toNat = other.toNat)
  | .uint32, one, other => decide (one.toNat = other.toNat)
  | .uint64, one, other => decide (one.toNat = other.toNat)
  | .float32, one, other => Fp.eq one other
  | .float64, one, other => Fp.eq one other
  | .complex64, _, _ => false
  | .complex128, _, _ => false

/-- A value with its type. -/
structure Scalar where
  type : BhType
  value : Value type

/-- Constants of one type that is not complex, with equal values. -/
def Scalar.eq (one other : Scalar) : Bool :=
  if h : other.type = one.type then valueEq one.type one.value (h ▸ other.value) else false

/-- `bh_constant`; the two numbers of a `BH_R123` are the operands of `BH_RANDOM`. -/
inductive Constant
  | typed (value : Scalar)
  | r123 (start key : Value .uint64)

/-- What a `const_data` points at. -/
inductive Part
  | value | start | key
  deriving DecidableEq, Repr

def Constant.part : Constant → Part → Option Scalar
  | .typed s, .value => some s
  | .r123 start _, .start => some ⟨.uint64, start⟩
  | .r123 _ key, .key => some ⟨.uint64, key⟩
  | _, _ => none

/-! ## Instructions in memory -/

/-- `bh_view`, with its arrays as they lie in memory: only the first `ndim` numbers count. -/
structure Slot where
  base : Option BhBase
  start : ℤ
  ndim : ℕ
  shape : ℕ → ℤ
  stride : ℕ → ℤ

/-- There are three slots. -/
instance instNeZeroSlots : NeZero 3 := ⟨by decide⟩

/-- `bh_instruction`. -/
structure Instr where
  opcode : BhOpcode
  operand : Fin 3 → Slot
  constant : Constant

/-- An operand of an instruction of a list. -/
abbrev Operand (n : ℕ) := Fin n × Fin 3

inductive Field
  | shape | stride
  deriving DecidableEq, Repr

/-- A pointer to one of the arrays of an operand. -/
structure ArrayRef (n : ℕ) where
  operand : Operand n
  field : Field
  deriving DecidableEq

section Memory
variable {n : ℕ}

def slot (prog : Fin n → Instr) (c : Operand n) : Slot := (prog c.1).operand c.2

def Slot.array (s : Slot) : Field → ℕ → ℤ
  | .shape => s.shape
  | .stride => s.stride

def read (prog : Fin n → Instr) (p : ArrayRef n) : ℕ → ℤ := (slot prog p.operand).array p.field

def Slot.write (s : Slot) (field : Field) (j : ℕ) (x : ℤ) : Slot :=
  match field with
  | .shape => { s with shape := Function.update s.shape j x }
  | .stride => { s with stride := Function.update s.stride j x }

/-- `p[j] = x`. -/
def write (prog : Fin n → Instr) (p : ArrayRef n) (j : ℕ) (x : ℤ) : Fin n → Instr := fun i =>
  { prog i with operand := fun k =>
      if (i, k) = p.operand then ((prog i).operand k).write p.field j x else (prog i).operand k }

end Memory

/-! ## The table -/

/-- Where `data` points: at the `const_data` of an entry, or at the `data` of a base. -/
inductive Data
  | entry (idx : ℕ)
  | base (b : BhBase)
  deriving DecidableEq, Repr

/-- `operand_t`. -/
structure Entry (n : ℕ) where
  constData : Option (Fin n × Part)
  data : Data
  etype : BhType
  nelem : ℕ
  ndim : ℕ
  start : ℤ
  shape : ArrayRef n
  stride : ArrayRef n
  layout : Layout
  base : Option BhBase
  deriving DecidableEq

/-- `SymbolTable`: `table_` and `nsymbols_`. -/
structure Table (n : ℕ) where
  table : ℕ → Entry n
  nsymbols : ℕ

section Table
variable {n : ℕ}

/-- `**data`, of a constant. -/
def scalar (prog : Fin n → Instr) (table : ℕ → Entry n) (e : Entry n) : Option Scalar :=
  match e.data with
  | .base _ => none
  | .entry idx => (table idx).constData.bind fun p => (prog p.1).constant.part p.2

/-- `equivalent`. -/
def equivalent (prog : Fin n → Instr) (table : ℕ → Entry n) (one other : Entry n) : Bool :=
  if one.layout ≠ other.layout then false
  else if one.layout = .scalarConst ∧ one.etype = other.etype then
    match scalar prog table one, scalar prog table other with
    | some a, some b => a.eq b
    | _, _ => false
  else
    one.data == other.data && one.ndim == other.ndim && one.start == other.start && one.base == other.base &&
      (List.range one.ndim).all fun j =>
        read prog one.stride j == read prog other.stride j && read prog one.shape j == read prog other.shape j

/-- The dimensions that `determine_layout` sees. -/
def Slot.dims (s : Slot) : List Strided.Dim := (List.range s.ndim).map fun j => ⟨(s.shape j).toNat, s.stride j⟩

/-- The constant of an operand, as `map_operand` takes it; `none` is the exception. -/
def constPart (constant : Constant) (k : Fin 3) : Option Part :=
  match constant with
  | .typed _ => some .value
  | .r123 _ _ => if k = 1 then some .start else if k = 2 then some .key else none

def constType : Constant → BhType
  | .typed s => s.type
  | .r123 _ _ => .uint64

/-- The candidate entry of `map_operand`, and the instructions after its writes. -/
def candidate (prog : Fin n → Instr) (idx : ℕ) (c : Operand n) : Option ((Fin n → Instr) × Entry n) :=
  match (slot prog c).base with
  | none => (constPart (prog c.1).constant c.2).map fun part =>
    let shape : ArrayRef n := ⟨c, .shape⟩
    let prog := write prog shape 0 1
    let stride : ArrayRef n := ⟨c, .shape⟩
    let prog := write prog stride 0 0
    (prog, {
      constData := some (c.1, part), data := .entry idx, etype := constType (prog c.1).constant, nelem := 1,
      ndim := 1, start := 0, shape := shape, stride := stride, layout := .scalarConst, base := none })
  | some b => some (prog, {
      constData := none, data := .base b, etype := b.type, nelem := b.nelem, ndim := (slot prog c).ndim,
      start := (slot prog c).start, shape := ⟨c, .shape⟩, stride := ⟨c, .stride⟩,
      layout := determineLayout (slot prog c).dims, base := some b })

/-- `map_operand`; the search goes over the entries before the candidate. -/
def mapOperand (prog : Fin n → Instr) (t : Table n) (c : Operand n) : Option ((Fin n → Instr) × Table n × ℕ) :=
  (candidate prog (t.nsymbols + 1) c).map fun (prog, e) =>
    let table := Function.update t.table (t.nsymbols + 1) e
    match (List.range t.nsymbols).findIdx? fun i => equivalent prog table (table (i + 1)) e with
    | some i => (prog, ⟨table, t.nsymbols⟩, i + 1)
    | none => (prog, ⟨table, t.nsymbols + 1⟩, t.nsymbols + 1)

/-- Calls of `map_operand`, one after the other, with the indices they return. -/
def mapOperands (prog : Fin n → Instr) (t : Table n) :
    List (Operand n) → Option ((Fin n → Instr) × Table n × List ℕ)
  | [] => some (prog, t, [])
  | c :: cs => do
    let (prog, t, idx) ← mapOperand prog t c
    let (prog, t, idxs) ← mapOperands prog t cs
    return (prog, t, idx :: idxs)

/-- Two operands are one view, or constants of one type that is not complex with equal values. -/
def same (prog : Fin n → Instr) (c d : Operand n) : Bool :=
  match (slot prog c).base, (slot prog d).base with
  | some b, some b' => b == b' && (slot prog c).start == (slot prog d).start && (slot prog c).ndim == (slot prog d).ndim &&
      (List.range (slot prog c).ndim).all fun j =>
        (slot prog c).stride j == (slot prog d).stride j && (slot prog c).shape j == (slot prog d).shape j
  | none, none =>
    match (constPart (prog c.1).constant c.2).bind (prog c.1).constant.part,
      (constPart (prog d.1).constant d.2).bind (prog d.1).constant.part with
    | some a, some b => a.eq b
    | _, _ => false
  | _, _ => false

/-- The entry carries what the operand is: its own shape and strides, or one dimension of length one. -/
def Carries (prog prog' : Fin n → Instr) (table : ℕ → Entry n) (c : Operand n) (e : Entry n) : Prop :=
  match (slot prog c).base with
  | some b => e.base = some b ∧ e.etype = b.type ∧ e.nelem = b.nelem ∧ e.start = (slot prog c).start ∧
      e.ndim = (slot prog c).ndim ∧ e.layout = determineLayout (slot prog c).dims ∧
      ∀ j < e.ndim, read prog' e.shape j = (slot prog c).shape j ∧ read prog' e.stride j = (slot prog c).stride j
  | none => e.base = none ∧ e.etype = constType (prog c.1).constant ∧
      scalar prog' table e = (constPart (prog c.1).constant c.2).bind (prog c.1).constant.part ∧
      e.layout = .scalarConst ∧ e.ndim = 1 ∧ read prog' e.shape 0 = 1 ∧ read prog' e.stride 0 = 0

/-- The table is what it should be after the calls `cs` on `prog`, which returned `idxs`. -/
structure Represents (prog : Fin n → Instr) (cs : List (Operand n)) (prog' : Fin n → Instr) (t : Table n)
    (idxs : List ℕ) : Prop where
  distinct : ∀ i j, 1 ≤ i → i ≤ t.nsymbols → 1 ≤ j → j ≤ t.nsymbols → i ≠ j →
    equivalent prog' t.table (t.table i) (t.table j) = false
  shared : (cs.zip idxs).Pairwise fun p q => p.2 = q.2 ↔ same prog p.1 q.1 = true
  carries : ∀ p ∈ cs.zip idxs, 1 ≤ p.2 ∧ p.2 ≤ t.nsymbols ∧ Carries prog prog' t.table p.1 (t.table p.2)

end Table

/-! ## Equality of constants and of views -/

theorem eq_of_valueEq {type : BhType} {a b : Value type} (h : valueEq type a b = true) : a = b := by
  have hfp : ∀ x y : Fp, x.eq y = true → x = y := by
    intro x y hxy
    cases x with
    | nan => cases hxy
    | inf _ => exact eq_of_beq hxy
    | fin _ => exact eq_of_beq hxy
  cases type with
  | float32 | float64 => exact hfp a b h
  | complex64 | complex128 => cases h
  | int8 | int16 | int32 | int64 => exact BitVec.toInt_inj.mp (of_decide_eq_true h)
  | _ => exact BitVec.eq_of_toNat_eq (of_decide_eq_true h)

theorem Scalar.eq_of_eq {a b : Scalar} (h : a.eq b = true) : a = b := by
  obtain ⟨type, x⟩ := a
  obtain ⟨type', y⟩ := b
  simp only [Scalar.eq] at h
  split at h
  · rename_i ht
    change type' = type at ht
    subst ht
    rw [eq_of_valueEq h]
  · cases h

section Same
variable {n : ℕ} {prog : Fin n → Instr} {c d : Operand n}

/-- The constant of an operand. -/
def constOf (prog : Fin n → Instr) (c : Operand n) : Option Scalar :=
  (constPart (prog c.1).constant c.2).bind (prog c.1).constant.part

theorem constOf_type {s : Scalar} (h : constOf prog c = some s) : s.type = constType (prog c.1).constant := by
  unfold constOf at h
  cases hc : (prog c.1).constant with
  | typed v =>
    rw [hc] at h
    obtain rfl : v = s := Option.some.inj h
    rfl
  | r123 start key =>
    rw [hc] at h
    simp only [constPart] at h
    split_ifs at h
    · obtain rfl := Option.some.inj h
      rfl
    · obtain rfl := Option.some.inj h
      rfl
    · cases h

/-- What `same` compares of views. -/
def viewOf (s : Slot) : Option BhBase × ℤ × ℕ × List (ℤ × ℤ) :=
  (s.base, s.start, s.ndim, (List.range s.ndim).map fun j => (s.shape j, s.stride j))

theorem dims_congr {s s' : Slot} (h : viewOf s = viewOf s') : s.dims = s'.dims := by
  have hdims : ∀ s : Slot, s.dims = (viewOf s).2.2.2.map fun p => ⟨p.1.toNat, p.2⟩ := by
    intro s
    simp [Slot.dims, viewOf]
  rw [hdims, hdims, h]

theorem same_arrays {b b' : BhBase} (hc : (slot prog c).base = some b) (hd : (slot prog d).base = some b') :
    same prog c d = true ↔ viewOf (slot prog c) = viewOf (slot prog d) := by
  simp only [same, hc, hd, viewOf, Bool.and_eq_true, beq_iff_eq, List.all_eq_true, List.mem_range, Prod.mk.injEq,
    Option.some.injEq]
  constructor
  · intro ⟨⟨⟨hb, hstart⟩, hndim⟩, hall⟩
    refine ⟨hb, hstart, hndim, ?_⟩
    rw [← hndim]
    apply List.map_congr_left
    intro j hj
    rw [(hall j (List.mem_range.mp hj)).1, (hall j (List.mem_range.mp hj)).2]
  · intro ⟨hb, hstart, hndim, hmap⟩
    refine ⟨⟨⟨hb, hstart⟩, hndim⟩, ?_⟩
    intro j hj
    rw [← hndim] at hmap
    have := List.map_inj_left.mp hmap j (List.mem_range.mpr hj)
    rw [Prod.mk.injEq] at this
    exact ⟨this.2, this.1⟩

theorem same_constants (hc : (slot prog c).base = none) (hd : (slot prog d).base = none) :
    same prog c d = true ↔ ∃ a b, constOf prog c = some a ∧ constOf prog d = some b ∧ a.eq b = true := by
  simp only [same, hc, hd]
  change (match constOf prog c, constOf prog d with
    | some a, some b => a.eq b
    | _, _ => false) = true ↔ _
  cases constOf prog c <;> cases constOf prog d <;> simp

theorem same_cases (h : same prog c d = true) :
    (∃ b b', (slot prog c).base = some b ∧ (slot prog d).base = some b') ∨
      ((slot prog c).base = none ∧ (slot prog d).base = none) := by
  cases hc : (slot prog c).base <;> cases hd : (slot prog d).base <;> simp [same, hc, hd] at h ⊢

theorem same_symm (c d : Operand n) (h : same prog c d = true) : same prog d c = true := by
  obtain ⟨b, b', hc, hd⟩ | ⟨hc, hd⟩ := same_cases h
  · exact (same_arrays hd hc).mpr ((same_arrays hc hd).mp h).symm
  · obtain ⟨x, y, hx, hy, hxy⟩ := (same_constants hc hd).mp h
    obtain rfl := Scalar.eq_of_eq hxy
    exact (same_constants hd hc).mpr ⟨x, x, hy, hx, hxy⟩

theorem same_trans (c d e : Operand n) (h : same prog c d = true) (h' : same prog d e = true) :
    same prog c e = true := by
  obtain ⟨b, b', hc, hd⟩ | ⟨hc, hd⟩ := same_cases h
  · obtain ⟨_, b'', _, he⟩ | ⟨hd', _⟩ := same_cases h'
    · exact (same_arrays hc he).mpr (((same_arrays hc hd).mp h).trans ((same_arrays hd he).mp h'))
    · rw [hd] at hd'
      cases hd'
  · obtain ⟨_, _, hd', _⟩ | ⟨_, he⟩ := same_cases h'
    · rw [hd] at hd'
      cases hd'
    · obtain ⟨x, y, hx, hy, hxy⟩ := (same_constants hc hd).mp h
      obtain ⟨y', z, hy', hz, hyz⟩ := (same_constants hd he).mp h'
      obtain rfl := Scalar.eq_of_eq hxy
      obtain rfl := Option.some.inj (hy.symm.trans hy')
      exact (same_constants hc he).mpr ⟨x, z, hx, hz, hyz⟩

/-- An operand and the one whose entry stands for it. -/
theorem stands_cases (h : d = c ∨ same prog d c = true) :
    (∃ b, (slot prog d).base = some b ∧ (slot prog c).base = some b ∧ viewOf (slot prog d) = viewOf (slot prog c)) ∨
      ((slot prog d).base = none ∧ (slot prog c).base = none ∧ constOf prog d = constOf prog c) := by
  obtain rfl | h := h
  · cases hb : (slot prog d).base with
    | none => exact Or.inr ⟨rfl, rfl, rfl⟩
    | some b => exact Or.inl ⟨b, rfl, rfl, rfl⟩
  · obtain ⟨b, b', hd, hc⟩ | ⟨hd, hc⟩ := same_cases h
    · have hview := (same_arrays hd hc).mp h
      have hbase := congrArg Prod.fst hview
      simp only [viewOf, hd, hc, Option.some.injEq] at hbase
      exact Or.inl ⟨b, hd, hbase ▸ hc, hview⟩
    · obtain ⟨x, y, hx, hy, hxy⟩ := (same_constants hd hc).mp h
      rw [hx, hy, Scalar.eq_of_eq hxy]
      exact Or.inr ⟨hd, hc, rfl⟩

end Same

/-! ## One call -/

section Call
variable {n : ℕ} {prog prog' : Fin n → Instr} {c d : Operand n} {t : Table n}

/-- The entry of an operand, at an index. -/
def entryOf (prog : Fin n → Instr) (idx : ℕ) (c : Operand n) : Entry n :=
  match (slot prog c).base with
  | none => {
      constData := (constPart (prog c.1).constant c.2).map (c.1, ·), data := .entry idx,
      etype := constType (prog c.1).constant, nelem := 1, ndim := 1, start := 0, shape := ⟨c, .shape⟩,
      stride := ⟨c, .shape⟩, layout := .scalarConst, base := none }
  | some b => {
      constData := none, data := .base b, etype := b.type, nelem := b.nelem, ndim := (slot prog c).ndim,
      start := (slot prog c).start, shape := ⟨c, .shape⟩, stride := ⟨c, .stride⟩,
      layout := determineLayout (slot prog c).dims, base := some b }

/-- What the writes of `map_operand` leave alone: the arrays, and the values of the constants. -/
structure Frame (prog prog' : Fin n → Instr) : Prop where
  opcode : ∀ i, (prog' i).opcode = (prog i).opcode
  constant : ∀ i, (prog' i).constant = (prog i).constant
  base : ∀ c, (slot prog' c).base = (slot prog c).base
  array : ∀ c b, (slot prog c).base = some b → slot prog' c = slot prog c

theorem Frame.refl (prog : Fin n → Instr) : Frame prog prog :=
  ⟨fun _ => rfl, fun _ => rfl, fun _ => rfl, fun _ _ _ => rfl⟩

theorem slot_write (prog : Fin n → Instr) (p : ArrayRef n) (j : ℕ) (x : ℤ) (c : Operand n) :
    slot (write prog p j x) c = if c = p.operand then (slot prog c).write p.field j x else slot prog c := rfl

theorem base_write (s : Slot) (field : Field) (j : ℕ) (x : ℤ) : (s.write field j x).base = s.base := by
  cases field <;> rfl

theorem Frame.write (h : Frame prog prog') (hc : (slot prog c).base = none) (field : Field) (j : ℕ) (x : ℤ) :
    Frame prog (write prog' ⟨c, field⟩ j x) := by
  refine ⟨h.opcode, h.constant, ?_, ?_⟩
  · intro d
    rw [slot_write]
    split
    · rw [base_write, h.base]
    · exact h.base d
  · intro d b hd
    rw [slot_write, if_neg, h.array d b hd]
    intro hcd
    rw [show d = c from hcd, hc] at hd
    cases hd

/-- One candidate: its entry, and the zero that the last write leaves as the length of a constant. -/
theorem candidate_spec (h : Frame prog prog') {idx : ℕ} {e : Entry n} {prog'' : Fin n → Instr}
    (hcand : candidate prog' idx c = some (prog'', e)) :
    Frame prog prog'' ∧ e = entryOf prog idx c ∧
      ((slot prog c).base = none → (slot prog'' c).shape 0 = 0) ∧
      ∀ d, (slot prog' d).shape 0 = 0 → (slot prog'' d).shape 0 = 0 := by
  cases hb : (slot prog c).base with
  | some b =>
    simp only [candidate, h.array c b hb, hb, Option.some.injEq, Prod.mk.injEq] at hcand
    obtain ⟨rfl, rfl⟩ := hcand
    refine ⟨h, ?_, ?_, fun _ hd => hd⟩
    · simp only [entryOf, hb]
    · intro hn
      cases hn
  | none =>
    have hb' : (slot prog' c).base = none := by rw [h.base, hb]
    simp only [candidate, hb', h.constant, Option.map_eq_some_iff, Prod.mk.injEq] at hcand
    obtain ⟨part, hpart, rfl, rfl⟩ := hcand
    have hzero : ∀ d, d = c ∨ (slot prog' d).shape 0 = 0 →
        (slot (write (write prog' ⟨c, .shape⟩ 0 1) ⟨c, .shape⟩ 0 0) d).shape 0 = 0 := by
      intro d hd
      rw [slot_write]
      split
      · exact Function.update_self (0 : ℕ) (0 : ℤ) (slot (write prog' ⟨c, .shape⟩ 0 1) d).shape
      · rename_i hne
        rw [slot_write, if_neg hne]
        exact hd.resolve_left hne
    refine ⟨(h.write hb .shape 0 1).write hb .shape 0 0, ?_, fun _ => hzero c (Or.inl rfl),
      fun d hd => hzero d (Or.inr hd)⟩
    simp only [entryOf, hb, hpart, Option.map_some, write, h.constant]

theorem determineLayout_ne (dims : List Strided.Dim) : determineLayout dims ≠ .scalarConst := by
  unfold determineLayout
  simp only
  split_ifs <;> exact Layout.noConfusion

theorem scalar_entryOf (h : Frame prog prog') {table : ℕ → Entry n} {idx : ℕ} (hidx : table idx = entryOf prog idx c)
    (hc : (slot prog c).base = none) : scalar prog' table (entryOf prog idx c) = constOf prog c := by
  have hentry : (entryOf prog idx c).data = .entry idx ∧
      (entryOf prog idx c).constData = (constPart (prog c.1).constant c.2).map (c.1, ·) := by
    simp only [entryOf, hc, and_self]
  unfold scalar
  rw [hentry.1]
  simp only [hidx, hentry.2, constOf]
  cases constPart (prog c.1).constant c.2 with
  | none => rfl
  | some part => exact congrArg (Constant.part · part) (h.constant c.1)

/-- `equivalent` tells whether two entries are of the same operand. -/
theorem equivalent_entryOf (h : Frame prog prog') {table : ℕ → Entry n} {i j : ℕ} (hij : i ≠ j)
    (hi : table i = entryOf prog i c) (hj : table j = entryOf prog j d) :
    equivalent prog' table (entryOf prog i c) (entryOf prog j d) = same prog c d := by
  rw [Bool.eq_iff_iff]
  cases hc : (slot prog c).base with
  | none =>
    cases hd : (slot prog d).base with
    | some b' =>
      have := determineLayout_ne (slot prog d).dims
      simp [equivalent, entryOf, same, hc, hd, this.symm]
    | none =>
      rw [same_constants hc hd]
      unfold equivalent
      rw [scalar_entryOf h hi hc, scalar_entryOf h hj hd]
      simp only [entryOf, hc, hd, ne_eq, not_true_eq_false, if_false, true_and]
      by_cases ht : constType (prog c.1).constant = constType (prog d.1).constant
      · rw [if_pos ht]
        cases constOf prog c <;> cases constOf prog d <;> simp
      · rw [if_neg ht]
        have hdata : (Data.entry i == Data.entry j) = false := by simpa using hij
        rw [hdata]
        simp only [Bool.false_and, Bool.false_eq_true, false_iff, not_exists, not_and]
        intro a b ha hb hab
        obtain rfl := Scalar.eq_of_eq hab
        exact ht ((constOf_type ha).symm.trans (constOf_type hb))
  | some b =>
    cases hd : (slot prog d).base with
    | none =>
      have := determineLayout_ne (slot prog c).dims
      simp [equivalent, entryOf, same, hc, hd, this]
    | some b' =>
      have hne := determineLayout_ne (slot prog c).dims
      have hread : ∀ field, read prog' ⟨c, field⟩ = (slot prog c).array field ∧
          read prog' ⟨d, field⟩ = (slot prog d).array field := by
        intro field
        simp only [read, h.array c b hc, h.array d b' hd, and_self]
      by_cases hl : determineLayout (slot prog c).dims = determineLayout (slot prog d).dims
      · simp only [equivalent, entryOf, hc, hd, ne_eq, hl, not_true_eq_false, if_false, same, hread, Slot.array]
        rw [if_neg (fun hand => hne (hl.trans hand.1))]
        simp only [Bool.and_eq_true, beq_iff_eq, Data.base.injEq, Option.some.injEq]
        grind
      · rw [same_arrays hc hd]
        simp only [equivalent, entryOf, hc, hd, ne_eq, hl, not_false_eq_true, if_true, Bool.false_eq_true, false_iff]
        exact fun hv => hl (congrArg determineLayout (dims_congr hv))

/-- The entries are those of the operands `occ`, in order. -/
structure Tabulates (prog prog' : Fin n → Instr) (t : Table n) (occ : List (Operand n)) : Prop where
  frame : Frame prog prog'
  nsymbols : t.nsymbols = occ.length
  entry : ∀ k c, occ[k]? = some c → t.table (k + 1) = entryOf prog (k + 1) c
  zero : ∀ c ∈ occ, (slot prog c).base = none → (slot prog' c).shape 0 = 0

theorem tabulates_nil (prog : Fin n → Instr) (table : ℕ → Entry n) : Tabulates prog prog ⟨table, 0⟩ [] where
  frame := Frame.refl prog
  nsymbols := rfl
  entry k c h := by cases h
  zero c h := by cases h

theorem findIdx?_range {α : Type} {l : List α} {p : α → Bool} {q : ℕ → Bool}
    (h : ∀ k a, l[k]? = some a → q k = p a) : (List.range l.length).findIdx? q = l.findIdx? p := by
  have hmap : l.map p = (List.range l.length).map q := by
    apply List.ext_getElem
    · simp
    · intro k hk _
      rw [List.length_map] at hk
      rw [List.getElem_map, List.getElem_map, List.getElem_range, h k _ (List.getElem?_eq_getElem hk)]
  have := congrArg (List.findIdx? id) hmap
  rw [List.findIdx?_map, List.findIdx?_map] at this
  exact this.symm

theorem mapOperand_spec {occ : List (Operand n)} (h : Tabulates prog prog' t occ) {prog'' : Fin n → Instr}
    {t' : Table n} {idx : ℕ} (hmap : mapOperand prog' t c = some (prog'', t', idx)) :
    Tabulates prog prog'' t' (intern (same prog) occ c).1 ∧ idx = (intern (same prog) occ c).2 + 1 := by
  unfold mapOperand at hmap
  rw [Option.map_eq_some_iff] at hmap
  obtain ⟨⟨prog1, e⟩, hcand, hmap⟩ := hmap
  obtain ⟨hframe, rfl, hzero, hkeep⟩ := candidate_spec h.frame hcand
  simp only at hmap
  generalize htable : Function.update t.table (t.nsymbols + 1) (entryOf prog (t.nsymbols + 1) c) = table at hmap
  have hnew : table (t.nsymbols + 1) = entryOf prog (t.nsymbols + 1) c := by
    rw [← htable, Function.update_self]
  have hold : ∀ k d, occ[k]? = some d → table (k + 1) = entryOf prog (k + 1) d := by
    intro k d hk
    have hlt := (List.getElem?_eq_some_iff.mp hk).1
    have := h.nsymbols
    rw [← htable, Function.update_of_ne (by omega), h.entry k d hk]
  have hfind : ((List.range t.nsymbols).findIdx? fun i => equivalent prog1 table (table (i + 1))
      (entryOf prog (t.nsymbols + 1) c)) = occ.findIdx? fun d => same prog d c := by
    rw [h.nsymbols]
    apply findIdx?_range
    intro k d hk
    have hlt := (List.getElem?_eq_some_iff.mp hk).1
    rw [hold k d hk, ← h.nsymbols]
    have := h.nsymbols
    exact equivalent_entryOf hframe (by omega) (hold k d hk) hnew
  rw [hfind] at hmap
  cases hidx : occ.findIdx? fun d => same prog d c with
  | some k =>
    rw [hidx] at hmap
    simp only [Prod.mk.injEq] at hmap
    obtain ⟨rfl, rfl, rfl⟩ := hmap
    rw [intern_eq_of_some hidx]
    exact ⟨⟨hframe, h.nsymbols, hold, fun d hd hb => hkeep d (h.zero d hd hb)⟩, rfl⟩
  | none =>
    rw [hidx] at hmap
    simp only [Prod.mk.injEq] at hmap
    obtain ⟨rfl, rfl, rfl⟩ := hmap
    rw [intern_eq_of_none hidx]
    refine ⟨⟨hframe, ?_, ?_, ?_⟩, by rw [h.nsymbols]⟩
    · simp [h.nsymbols]
    · intro k d hk
      rw [List.getElem?_append] at hk
      split at hk
      · exact hold k d hk
      · rw [List.getElem?_singleton] at hk
        split at hk
        · obtain rfl := Option.some.inj hk
          have hk' : k = t.nsymbols := by
            have := h.nsymbols
            omega
          rw [hk']
          exact hnew
        · cases hk
    · intro d hd hb
      obtain hd | hd := List.mem_append.mp hd
      · exact hkeep d (h.zero d hd hb)
      · obtain rfl := List.mem_singleton.mp hd
        exact hzero hb

/-- Any sequence of calls interns the operands. -/
theorem mapOperands_spec {cs occ : List (Operand n)} (h : Tabulates prog prog' t occ) {prog'' : Fin n → Instr}
    {t' : Table n} {idxs : List ℕ} (hmap : mapOperands prog' t cs = some (prog'', t', idxs)) :
    Tabulates prog prog'' t' (internAll (same prog) occ cs).1 ∧
      idxs = (internAll (same prog) occ cs).2.map (· + 1) := by
  induction cs generalizing prog' t occ idxs with
  | nil =>
    simp only [mapOperands, Option.some.injEq, Prod.mk.injEq] at hmap
    obtain ⟨rfl, rfl, rfl⟩ := hmap
    exact ⟨h, rfl⟩
  | cons c cs ih =>
    simp only [mapOperands, Option.bind_eq_bind, Option.bind_eq_some_iff, Prod.exists] at hmap
    obtain ⟨prog1, t1, idx, hone, prog2, t2, idxs', hrest, heq⟩ := hmap
    simp only [Option.pure_def, Option.some.injEq, Prod.mk.injEq] at heq
    obtain ⟨rfl, rfl, rfl⟩ := heq
    obtain ⟨h1, hidx⟩ := mapOperand_spec h hone
    obtain ⟨h2, hidxs⟩ := ih h1 hrest
    refine ⟨h2, ?_⟩
    simp only [internAll, List.map_cons, hidx, hidxs]

end Call

/-! ## The table after any calls -/

section Run
variable {n : ℕ} {prog prog' : Fin n → Instr} {cs : List (Operand n)} {t : Table n} {idxs : List ℕ}
  {table : ℕ → Entry n}

/-- The table interns the operands of the calls: an index stands for an entry of the operand or of one
that is the same. -/
theorem mapOperands_interns (h : mapOperands prog ⟨table, 0⟩ cs = some (prog', t, idxs)) :
    ∃ occ, Tabulates prog prog' t occ ∧ occ.Pairwise (fun c d => same prog c d = false) ∧
      (cs.zip idxs).Pairwise (fun p q => p.2 = q.2 ↔ same prog p.1 q.1 = true) ∧
      ∀ p ∈ cs.zip idxs, ∃ k d, p.2 = k + 1 ∧ occ[k]? = some d ∧ (d = p.1 ∨ same prog d p.1 = true) := by
  obtain ⟨htab, rfl⟩ := mapOperands_spec (tabulates_nil prog table) h
  obtain ⟨hpair, hholds, hidx⟩ := internAll_nil_spec (r := same prog) same_symm same_trans cs
  refine ⟨_, htab, hpair, ?_, ?_⟩
  · rw [List.zip_map_right, List.pairwise_map]
    refine hidx.imp fun hpq => ?_
    simpa using hpq
  · intro p hp
    rw [List.zip_map_right] at hp
    obtain ⟨q, hq, rfl⟩ := List.mem_map.mp hp
    obtain ⟨d, hd, hsame⟩ := hholds q hq
    exact ⟨q.2, d, rfl, hd, hsame⟩

/-- The entry of an array, found or made. -/
theorem carries_array {c d : Operand n} {idx : ℕ} (hframe : Frame prog prog') (hd : d = c ∨ same prog d c = true)
    {b : BhBase} (hb : (slot prog c).base = some b) : Carries prog prog' table c (entryOf prog idx d) := by
  obtain ⟨b', hb', hc', hview⟩ | ⟨_, hn, _⟩ := stands_cases hd
  swap
  · rw [hb] at hn
    cases hn
  have hdims := dims_congr hview
  simp only [viewOf, hb, hb', Prod.mk.injEq, Option.some.injEq] at hview
  obtain ⟨rfl, hstart, hndim, hmap⟩ := hview
  simp only [Carries, hb, entryOf, hb', hstart, hndim, hdims, true_and]
  intro j hj
  rw [← hndim] at hmap hj
  have := List.map_inj_left.mp hmap j (List.mem_range.mpr hj)
  simp only [read, hframe.array d b' hb', Slot.array]
  exact Prod.mk.inj this

/-- The entry of a constant has no elements: its length is zero. -/
theorem not_carries_constant {c d : Operand n} {idx : ℕ} (hd : d = c ∨ same prog d c = true)
    (hc : (slot prog c).base = none) (hzero : (slot prog d).base = none → (slot prog' d).shape 0 = 0) :
    ¬Carries prog prog' table c (entryOf prog idx d) := by
  obtain ⟨b, _, hb, _⟩ | ⟨hdn, _, _⟩ := stands_cases hd
  · rw [hc] at hb
    cases hb
  intro hcar
  simp only [Carries, hc, entryOf, hdn, read, Slot.array, hzero hdn] at hcar
  exact absurd hcar.2.2.2.2.2.1 (by decide)

/-- After any calls on the operands of any instructions, the table is what it should be exactly when none of
the operands is a constant. -/
theorem represents_iff (h : mapOperands prog ⟨table, 0⟩ cs = some (prog', t, idxs)) :
    Represents prog cs prog' t idxs ↔ ∀ c ∈ cs, (slot prog c).base.isSome = true := by
  obtain ⟨occ, htab, hpair, hshared, hholds⟩ := mapOperands_interns h
  constructor
  · intro hrep c hc
    by_contra hnone
    have hc' : (slot prog c).base = none := by simpa using hnone
    have hlen : idxs.length = cs.length := by
      obtain ⟨_, rfl⟩ := mapOperands_spec (tabulates_nil prog table) h
      rw [List.length_map, length_internAll]
    obtain ⟨k, hk, rfl⟩ := List.getElem_of_mem hc
    have hp : (cs[k], idxs[k]) ∈ cs.zip idxs :=
      List.mem_iff_getElem.mpr ⟨k, by simp [hlen, hk], List.getElem_zip⟩
    obtain ⟨i, d, hidx, hd, hsame⟩ := hholds _ hp
    have hcar := (hrep.carries _ hp).2.2
    rw [hidx, htab.entry i d hd] at hcar
    exact not_carries_constant hsame hc' (htab.zero d (List.mem_of_getElem? hd)) hcar
  · intro harr
    refine ⟨?_, hshared, ?_⟩
    · intro i j hi hin hj hjn hij
      obtain ⟨i, rfl⟩ := Nat.exists_eq_add_of_le' hi
      obtain ⟨j, rfl⟩ := Nat.exists_eq_add_of_le' hj
      rw [htab.nsymbols] at hin hjn
      have hci := htab.entry i _ (List.getElem?_eq_getElem hin)
      have hcj := htab.entry j _ (List.getElem?_eq_getElem hjn)
      rw [hci, hcj, equivalent_entryOf htab.frame hij hci hcj]
      have hno := List.pairwise_iff_getElem.mp hpair
      obtain hlt | heq | hgt := Nat.lt_trichotomy i j
      · exact hno i j hin hjn hlt
      · omega
      · rw [Bool.eq_false_iff]
        intro hsame
        have := same_symm _ _ hsame
        rw [hno j i hjn hin hgt] at this
        cases this
    · intro p hp
      obtain ⟨i, d, hidx, hd, hsame⟩ := hholds p hp
      have hlt := (List.getElem?_eq_some_iff.mp hd).1
      obtain ⟨b, hb⟩ := Option.isSome_iff_exists.mp (harr p.1 (List.of_mem_zip hp).1)
      rw [hidx, htab.entry i d hd, htab.nsymbols]
      exact ⟨by omega, hlt, carries_array htab.frame hsame hb⟩

end Run

/-- Four elements of a vector of eight. -/
def everyOther (stride : ℤ) : Slot := ⟨some ⟨1, .int64, 8⟩, 0, 1, fun _ => 4, fun _ => stride⟩

def constantSlot : Slot := ⟨none, 0, 0, fun _ => 0, fun _ => 0⟩

/-- `a[0:8:2] = a[0:8:2] + in2`. -/
def addTo (in2 : Slot) : Fin 1 → Instr := fun _ =>
  ⟨.add, fun k => if k = 2 then in2 else everyOther 2, .typed ⟨.int64, (7 : BitVec 64)⟩⟩

def unused : Entry 1 := ⟨none, .entry 0, .bool, 0, 0, 0, ⟨(0, 0), .shape⟩, ⟨(0, 0), .shape⟩, .scalar, none⟩

theorem represents_add : ∃ prog' t idxs,
    mapOperands (addTo (everyOther 1)) ⟨fun _ => unused, 0⟩ [(0, 0), (0, 1), (0, 2)] = some (prog', t, idxs) ∧
      Represents (addTo (everyOther 1)) [(0, 0), (0, 1), (0, 2)] prog' t idxs := by
  have hsome : (mapOperands (addTo (everyOther 1)) ⟨fun _ => unused, 0⟩ [(0, 0), (0, 1), (0, 2)]).isSome = true := by
    decide
  obtain ⟨⟨prog', t, idxs⟩, h⟩ := Option.isSome_iff_exists.mp hsome
  exact ⟨prog', t, idxs, h, (represents_iff h).mpr (by decide)⟩

/-- `a[0:8:2] = a[0:8:2] + 7`: the length of the constant becomes zero. -/
theorem not_represents_addConstant :
    ¬∀ (n : ℕ) (prog prog' : Fin n → Instr) (cs : List (Operand n)) (table : ℕ → Entry n) (t : Table n) (idxs : List ℕ),
      mapOperands prog ⟨table, 0⟩ cs = some (prog', t, idxs) → Represents prog cs prog' t idxs := by
  intro hall
  have hlength : ((mapOperands (addTo constantSlot) ⟨fun _ => unused, 0⟩ [(0, 2)]).map fun r =>
      (r.2.2, read r.1 (r.2.1.table 1).shape 0)) = some ([1], 0) := by decide
  obtain ⟨⟨prog', t, idxs⟩, h, heq⟩ := Option.map_eq_some_iff.mp hlength
  obtain ⟨rfl, hzero⟩ := Prod.mk.inj heq
  have hone := ((hall _ _ _ _ _ _ _ h).carries ((0, 2), 1) (by simp)).2.2.2.2.2.2.2.1
  rw [hzero] at hone
  cases hone

end Bohrium.Cpu
