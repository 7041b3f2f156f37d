import Bohrium.Semantics.Whole

/-! # The expansion filter

`filter/bcexp`: composite operations are replaced by sequences of simpler ones. `expand` scans the
list while it inserts into it, so the end of the loop moves. A null pointer that the source would
follow is `none`. -/
namespace Bohrium
open CInt Strided
set_option autoImplicit false

/-- `Expander`: what is to be expanded. `blank` is a `bh_instruction` as it comes from the stack:
`inject` assigns some of its fields and leaves the others. -/
structure Expander where
  matmul : Bool
  sign : Bool
  powk : Bool
  blank : BhInstruction
  deriving Repr

/-- `bh_set_constant`, for values that every type holds exactly. -/
def bhSetConstant (type : BhType) (value : ℤ) : BhConstant :=
  match type with
  | .float32 | .float64 => .float type (some value)
  | .complex64 | .complex128 => .complex type (some value) (some 0)
  | _ => .int type value

/-- `bh_flag_constant`. -/
def bhFlagConstant (v : BhView) : BhView := { v with base := none }

/-- `bh_get_integer`: the exponent of `BH_POWER` if it is a natural number, else `-1`. -/
def bhGetInteger : BhConstant → ℤ
  | .float .float32 (some q) | .float .float64 (some q) => if q.den = 1 ∧ 0 ≤ q.num then q.num else -1
  | _ => -1

/-- The loops that set a contiguous stride, from the last dimension to the first. -/
def contiguous : List Dim → List Dim
  | [] => []
  | d :: ds => ⟨d.shape, (ds.map Dim.shape).prod⟩ :: contiguous ds

/-- `make_temp`; `addr` is what `new` returns. -/
def makeTemp (like : BhView) (type : BhType) (addr : ℕ) : BhView :=
  { like with base := some ⟨addr, type, bhNelements like⟩ }

namespace Expander

/-! ## `inject` -/

def system (e : Expander) (opcode : BhOpcode) (out : BhView) : BhInstruction :=
  { e.blank with opcode := opcode, operand0 := out }

def unary (e : Expander) (opcode : BhOpcode) (out in1 : BhView) : BhInstruction :=
  { e.blank with opcode := opcode, operand0 := out, operand1 := in1 }

def unaryConst (e : Expander) (opcode : BhOpcode) (out : BhView) (in1 : ℤ) (type : BhType) : BhInstruction :=
  { e.blank with
    opcode := opcode, operand0 := out, operand1 := bhFlagConstant e.blank.operand1
    constant := bhSetConstant type in1 }

def binary (e : Expander) (opcode : BhOpcode) (out in1 in2 : BhView) : BhInstruction :=
  { e.blank with opcode := opcode, operand0 := out, operand1 := in1, operand2 := in2 }

def binaryConst (e : Expander) (opcode : BhOpcode) (out in1 : BhView) (in2 : ℤ) (type : BhType) :
    BhInstruction :=
  { e.blank with
    opcode := opcode, operand0 := out, operand1 := in1, operand2 := bhFlagConstant e.blank.operand2
    constant := bhSetConstant type in2 }

/-- `BH_FREE` and `BH_DISCARD` of a temporary. -/
def drop (e : Expander) (v : BhView) : List BhInstruction := [e.system .free v, e.system .discard v]

/-- A run of `inject(bhir, ++pc, ...)`: each instruction goes behind the one before. The list and the
last `pc`. -/
def injectAll (l : List BhInstruction) (pc : ℕ) (seq : List BhInstruction) : List BhInstruction × ℕ :=
  seq.foldl (fun s i => (s.1.insertIdx (s.2 + 1) i, s.2 + 1)) (l, pc)

/-! ## The sequences -/

/-- `expand_powk`; an empty sequence is the answer that the transformation does not apply. -/
def expandPowk (e : Expander) (i : BhInstruction) : Option (List BhInstruction) :=
  let exponent := bhGetInteger i.constant
  if !bhIsConstant i.operand2 then some []
  else if exponent < 0 ∨ 100 < exponent then some []
  else if i.operand0.base = i.operand1.base then some []
  else
    let out := i.operand0
    let in1 := i.operand1
    let mul := e.binary .multiply out
    match exponent.toNat with
    | 0 => out.base.map fun b => [e.unaryConst .identity out 1 b.type]
    | 1 => some [e.unary .identity out in1]
    | 2 => some [mul in1 in1]
    | 3 => some [mul in1 in1, mul out in1]
    | 4 => some [mul in1 in1, mul out out]
    | 5 => some [mul in1 in1, mul out out, mul out in1]
    | n => some (mul in1 in1 :: List.replicate (n - 2) (mul out in1))

/-- `int n = view.shape[dim]`; a length that is negative as an `int` is no element. -/
def intShape (v : BhView) (dim : ℕ) : ℕ := (toInt32 (v.shape.getD dim 0)).toNat

def strideAt (v : BhView) (dim : ℕ) : ℤ := (v.dims.map Dim.stride).getD dim 0

/-- `expand_matmul`. -/
def expandMatmul (e : Expander) (addr : ℕ) (i : BhInstruction) : Option (List BhInstruction) :=
  let out := i.operand0
  let a := i.operand1
  let b := i.operand2
  let n := intShape a 0
  let m := intShape a 1
  let k := intShape b 1
  let a3d : BhView := { a with dims := [⟨n, strideAt a 0⟩, ⟨k, 0⟩, ⟨m, strideAt a 1⟩] }
  let b3d : BhView := { b with dims := [⟨n, 0⟩, ⟨k, strideAt b 1⟩, ⟨m, strideAt b 0⟩] }
  b.base.map fun base =>
    let c3d := makeTemp { b with start := 0, dims := contiguous b3d.dims } base.type addr
    [e.binary .multiply c3d a3d b3d, e.binaryConst .addReduce out c3d 2 .int64] ++ e.drop c3d

/-- `expand_sign`. -/
def expandSign (e : Expander) (addr : ℕ) (i : BhInstruction) : Option (List BhInstruction) :=
  let output := i.operand0
  let input := i.operand1
  let metaView : BhView := { output with start := 0, dims := contiguous output.dims }
  input.base.map fun base =>
    if base.type ≠ .complex64 ∧ base.type ≠ .complex128 then
      let lss := makeTemp metaView base.type addr
      let gtr := makeTemp metaView base.type (addr + 1)
      let tBool := makeTemp metaView .bool (addr + 2)
      [e.binaryConst .greater tBool input 0 base.type, e.unary .identity lss tBool] ++ e.drop tBool ++
      [e.binaryConst .less tBool input 0 base.type, e.unary .identity gtr tBool] ++ e.drop tBool ++
      [e.binary .subtract output lss gtr] ++ e.drop lss ++ e.drop gtr
    else
      let floatType : BhType := if base.type = .complex64 then .float32 else .float64
      let fAbs := makeTemp metaView floatType addr
      let bZero := makeTemp metaView .bool (addr + 1)
      let fZero := makeTemp metaView floatType (addr + 2)
      [e.unary .absolute fAbs input, e.binaryConst .equal bZero fAbs 0 floatType,
        e.unary .identity fZero bZero] ++ e.drop bZero ++
      [e.binary .add fAbs fAbs fZero] ++ e.drop fZero ++
      [e.unary .identity output fAbs] ++ e.drop fAbs ++ [e.binary .divide output input output]

/-! ## `expand` -/

/-- The body of the loop: the list, the next free address, and by how much `end` and `pc` grow. -/
def expandAt (e : Expander) (l : List BhInstruction) (addr pc : ℕ) (i : BhInstruction) :
    Option (List BhInstruction × ℕ × ℕ × ℕ) :=
  let l' := l.modify pc BhInstruction.toNone
  match i.opcode with
  | .power =>
    if e.powk then
      (e.expandPowk i).map fun seq =>
        if seq = [] then (l, addr, 0, 0)
        else
          let r := injectAll l' pc seq
          (r.1, addr, r.2 - pc, 0)
    else some (l, addr, 0, 0)
  | .matmul =>
    if e.matmul then
      (e.expandMatmul addr i).map fun seq =>
        let r := injectAll l' pc seq
        (r.1, addr + 1, r.2 - pc, 0)
    else some (l, addr, 0, 0)
  | .sign =>
    if e.sign then
      (e.expandSign addr i).map fun seq =>
        let r := injectAll l' pc seq
        (r.1, addr + 3, r.2 - pc, r.2 - pc)
    else some (l, addr, 0, 0)
  | _ => some (l, addr, 0, 0)

def expandLoop (e : Expander) : ℕ → List BhInstruction → ℕ → ℕ → ℕ → Option (List BhInstruction)
  | 0, _, _, _, _ => none
  | fuel + 1, l, addr, pc, stop =>
    if pc < stop then
      (l[pc]?.bind (e.expandAt l addr pc)).bind fun s =>
        expandLoop e fuel s.1 s.2.1 (pc + s.2.2.2 + 1) (stop + s.2.2.1)
    else some l

/-- `expand`; `addr` is the first address that `new` returns. No sequence is longer than 100
instructions, which bounds the turns of the loop. -/
def expand (e : Expander) (addr : ℕ) (l : List BhInstruction) : Option (List BhInstruction) :=
  e.expandLoop (101 * l.length + 1) l addr 0 l.length

/-! ## What the loop computes -/

/-- What stands in the place of an instruction in the end, and the next free address. -/
def expansion (e : Expander) (addr : ℕ) (i : BhInstruction) : Option (List BhInstruction × ℕ) :=
  match i.opcode with
  | .power =>
    if e.powk then
      (e.expandPowk i).map fun seq => (if seq = [] then [i] else i.toNone :: seq, addr)
    else some ([i], addr)
  | .matmul =>
    if e.matmul then (e.expandMatmul addr i).map fun seq => (i.toNone :: seq, addr + 1)
    else some ([i], addr)
  | .sign =>
    if e.sign then (e.expandSign addr i).map fun seq => (i.toNone :: seq, addr + 3)
    else some ([i], addr)
  | _ => some ([i], addr)

def expandAll (e : Expander) : ℕ → List BhInstruction → Option (List BhInstruction)
  | _, [] => some []
  | addr, i :: l => (e.expansion addr i).bind fun s => (expandAll e s.2 l).map (s.1 ++ ·)

/-- An operation that `expand` leaves alone. -/
def Plain (i : BhInstruction) : Prop := i.opcode ≠ .power ∧ i.opcode ≠ .matmul ∧ i.opcode ≠ .sign

section Loop
variable {e : Expander} {addr : ℕ} {i : BhInstruction} {seq : List BhInstruction}

theorem plain_expandPowk (h : e.expandPowk i = some seq) : (∀ j ∈ seq, Plain j) ∧ seq.length ≤ 100 := by
  unfold expandPowk at h
  dsimp only at h
  split_ifs at h with hc hrange hbase
  · cases h
    simp
  · cases h
    simp
  · cases h
    simp
  · simp only [not_or, not_lt] at hrange
    split at h
    · obtain ⟨b, _, rfl⟩ := Option.map_eq_some_iff.mp h
      simp [Plain, unaryConst]
    · cases h
      simp [Plain, unary]
    all_goals
      cases h
      refine ⟨?_, by simp <;> omega⟩
      simp [Plain, binary]

theorem plain_expandMatmul (h : e.expandMatmul addr i = some seq) :
    (∀ j ∈ seq, Plain j) ∧ seq.length ≤ 100 := by
  obtain ⟨b, _, rfl⟩ := Option.map_eq_some_iff.mp h
  simp [Plain, binary, binaryConst, drop, system]

theorem plain_expandSign (h : e.expandSign addr i = some seq) :
    (∀ j ∈ seq, Plain j) ∧ seq.length ≤ 100 := by
  obtain ⟨b, _, rfl⟩ := Option.map_eq_some_iff.mp h
  dsimp only
  split_ifs <;> simp [Plain, unary, binary, binaryConst, drop, system]

theorem insertIdx_length (pre rest : List BhInstruction) (i : BhInstruction) :
    (pre ++ rest).insertIdx pre.length i = pre ++ i :: rest := by
  induction pre with
  | nil => rfl
  | cons x pre ih => simp [ih]

theorem modify_length (pre rest : List BhInstruction) (i : BhInstruction) (f : BhInstruction → BhInstruction) :
    (pre ++ i :: rest).modify pre.length f = pre ++ f i :: rest := by
  induction pre with
  | nil => rfl
  | cons x pre ih => simp [ih]

theorem injectAll_eq (pre rest seq : List BhInstruction) (x : BhInstruction) :
    injectAll (pre ++ x :: rest) pre.length seq =
      (pre ++ x :: (seq ++ rest), pre.length + seq.length) := by
  induction seq generalizing pre x with
  | nil => rfl
  | cons i seq ih =>
    have hinsert : (pre ++ x :: rest).insertIdx (pre.length + 1) i = (pre ++ [x]) ++ i :: rest := by
      have h := insertIdx_length (pre ++ [x]) rest i
      rwa [List.append_assoc, List.singleton_append, List.length_append, List.length_singleton] at h
    have hnext := ih (pre ++ [x]) i
    rw [List.length_append, List.length_singleton] at hnext
    show injectAll ((pre ++ x :: rest).insertIdx (pre.length + 1) i) (pre.length + 1) seq = _
    rw [hinsert, hnext]
    simp [Nat.add_assoc, Nat.add_comm 1]

/-- One turn of the loop: the instruction gives way to its expansion, and `pc` goes behind it or to
instructions that are left alone. -/
theorem expandAt_eq (pre rest : List BhInstruction) :
    (e.expansion addr i = none ∧ e.expandAt (pre ++ i :: rest) addr pre.length i = none) ∨
    ∃ x tail addr' skip, e.expansion addr i = some (x :: tail, addr') ∧
      e.expandAt (pre ++ i :: rest) addr pre.length i =
        some (pre ++ x :: (tail ++ rest), addr', tail.length, skip) ∧
      (∀ j ∈ tail, Plain j) ∧ tail.length ≤ 100 ∧ (skip = 0 ∨ skip = tail.length) := by
  have hstay : e.expansion addr i = some ([i], addr) →
      e.expandAt (pre ++ i :: rest) addr pre.length i = some (pre ++ i :: rest, addr, 0, 0) →
      ∃ x tail addr' skip, e.expansion addr i = some (x :: tail, addr') ∧
        e.expandAt (pre ++ i :: rest) addr pre.length i =
          some (pre ++ x :: (tail ++ rest), addr', tail.length, skip) ∧
        (∀ j ∈ tail, Plain j) ∧ tail.length ≤ 100 ∧ (skip = 0 ∨ skip = tail.length) := by
    intro h1 h2
    exact ⟨i, [], addr, 0, h1, h2, by simp, by simp, Or.inl rfl⟩
  have hmod := modify_length pre rest i BhInstruction.toNone
  by_cases hpower : i.opcode = .power
  · by_cases hflag : e.powk = true
    · cases hseq : e.expandPowk i with
      | none => exact Or.inl (by simp [expansion, expandAt, hpower, hflag, hseq])
      | some seq =>
        by_cases hnil : seq = []
        · exact Or.inr (hstay (by simp [expansion, hpower, hflag, hseq, hnil])
            (by simp [expandAt, hpower, hflag, hseq, hnil]))
        · obtain ⟨hplain, hlen⟩ := plain_expandPowk hseq
          refine Or.inr ⟨i.toNone, seq, addr, 0, ?_, ?_, hplain, hlen, Or.inl rfl⟩
          · simp [expansion, hpower, hflag, hseq, hnil]
          · simp [expandAt, hpower, hflag, hseq, hnil, hmod, injectAll_eq]
    · exact Or.inr (hstay (by simp [expansion, hpower, hflag]) (by simp [expandAt, hpower, hflag]))
  by_cases hmatmul : i.opcode = .matmul
  · by_cases hflag : e.matmul = true
    · cases hseq : e.expandMatmul addr i with
      | none => exact Or.inl (by simp [expansion, expandAt, hmatmul, hflag, hseq])
      | some seq =>
        obtain ⟨hplain, hlen⟩ := plain_expandMatmul hseq
        refine Or.inr ⟨i.toNone, seq, addr + 1, 0, ?_, ?_, hplain, hlen, Or.inl rfl⟩
        · simp [expansion, hmatmul, hflag, hseq]
        · simp [expandAt, hmatmul, hflag, hseq, hmod, injectAll_eq]
    · exact Or.inr (hstay (by simp [expansion, hmatmul, hflag]) (by simp [expandAt, hmatmul, hflag]))
  by_cases hsign : i.opcode = .sign
  · by_cases hflag : e.sign = true
    · cases hseq : e.expandSign addr i with
      | none => exact Or.inl (by simp [expansion, expandAt, hsign, hflag, hseq])
      | some seq =>
        obtain ⟨hplain, hlen⟩ := plain_expandSign hseq
        refine Or.inr ⟨i.toNone, seq, addr + 3, seq.length, ?_, ?_, hplain, hlen, Or.inr rfl⟩
        · simp [expansion, hsign, hflag, hseq]
        · simp [expandAt, hsign, hflag, hseq, hmod, injectAll_eq]
    · exact Or.inr (hstay (by simp [expansion, hsign, hflag]) (by simp [expandAt, hsign, hflag]))
  · refine Or.inr (hstay ?_ ?_)
    · unfold expansion
      split <;> first | rfl | contradiction
    · unfold expandAt
      dsimp only
      split <;> first | rfl | contradiction

theorem expandAt_plain (hi : Plain i) (l : List BhInstruction) (pc : ℕ) :
    e.expandAt l addr pc i = some (l, addr, 0, 0) := by
  unfold expandAt
  dsimp only
  split
  · exact absurd ‹_› hi.1
  · exact absurd ‹_› hi.2.1
  · exact absurd ‹_› hi.2.2
  · rfl

/-- The loop runs over instructions that are left alone. -/
theorem expandLoop_plain (fuel addr stop : ℕ) (pre mid rest : List BhInstruction)
    (hmid : ∀ j ∈ mid, Plain j) (hstop : pre.length + mid.length ≤ stop) :
    e.expandLoop (fuel + mid.length) (pre ++ (mid ++ rest)) addr pre.length stop =
      e.expandLoop fuel (pre ++ (mid ++ rest)) addr (pre.length + mid.length) stop := by
  induction mid generalizing pre with
  | nil => rfl
  | cons i mid ih =>
    rw [List.length_cons] at hstop
    have hget : (pre ++ (i :: mid ++ rest))[pre.length]? = some i := by simp
    rw [List.length_cons, ← Nat.add_assoc, expandLoop, if_pos (by omega), hget, Option.bind_some,
      expandAt_plain (hmid i List.mem_cons_self), Option.bind_some]
    have hnext := ih (pre ++ [i]) (fun j hj => hmid j (List.mem_cons_of_mem i hj)) (by simp; omega)
    simpa [Nat.add_assoc, Nat.add_comm 1] using hnext

/-- From any position the loop puts every instruction's expansion in its place. -/
theorem expandLoop_eq (l pre : List BhInstruction) (addr fuel : ℕ) (hfuel : 101 * l.length + 1 ≤ fuel) :
    e.expandLoop fuel (pre ++ l) addr pre.length (pre.length + l.length) =
      (e.expandAll addr l).map (pre ++ ·) := by
  induction l generalizing pre addr fuel with
  | nil =>
    obtain ⟨fuel, rfl⟩ : ∃ n, fuel = n + 1 := ⟨fuel - 1, by omega⟩
    simp [expandLoop, expandAll]
  | cons i l ih =>
    rw [List.length_cons] at hfuel
    obtain ⟨fuel, rfl⟩ : ∃ n, fuel = n + 1 := ⟨fuel - 1, by omega⟩
    have hget : (pre ++ i :: l)[pre.length]? = some i := by simp
    rw [expandLoop, if_pos (by simp), hget, Option.bind_some, expandAll]
    rcases expandAt_eq pre l with ⟨hnone, hat⟩ | ⟨x, tail, addr', skip, hsome, hat, hplain, hlen, hskip⟩
    · rw [hat, hnone]
      rfl
    · have hpre : pre ++ x :: (tail ++ l) = (pre ++ x :: tail) ++ l := by simp
      have hstop : pre.length + (l.length + 1) + tail.length = (pre ++ x :: tail).length + l.length := by
        simp
        omega
      rw [hat, hsome, Option.bind_some, Option.bind_some, List.length_cons]
      dsimp only
      rcases hskip with rfl | rfl
      · -- `pc` moves on by one and passes the expansion
        have hplain' := expandLoop_plain (e := e) (fuel - tail.length) addr'
          (pre.length + (l.length + 1) + tail.length) (pre ++ [x]) tail l hplain (by simp)
        rw [Nat.sub_add_cancel (by omega)] at hplain'
        have hloop := ih (pre ++ x :: tail) addr' (fuel - tail.length) (by omega)
        rw [← hpre, ← hstop] at hloop
        simp only [List.append_assoc, List.singleton_append, List.length_append, List.length_singleton]
          at hplain'
        rw [Nat.add_zero, hplain']
        simp only [List.length_append, List.length_cons] at hloop
        rw [show pre.length + 1 + tail.length = pre.length + (tail.length + 1) by omega, hloop,
          Option.map_map]
        exact congrArg (Option.map · _) (funext fun r => by simp)
      · have hloop := ih (pre ++ x :: tail) addr' fuel (by omega)
        rw [← hpre, ← hstop] at hloop
        simp only [List.length_append, List.length_cons] at hloop
        rw [Nat.add_assoc, hloop, Option.map_map]
        exact congrArg (Option.map · _) (funext fun r => by simp)

theorem expand_eq (e : Expander) (addr : ℕ) (l : List BhInstruction) :
    e.expand addr l = e.expandAll addr l := by
  have h := expandLoop_eq (e := e) l [] addr _ le_rfl
  simpa [expand] using h

end Loop
end Expander
end Bohrium
