import Bohrium.Core.Instruction

/-! # The C++ bridge

`bxx/multi_array.hpp`, `bxx/runtime.hpp`, `bxx/runtime.broadcast.hpp` and the operations that
`codegen/templates` make for the elementwise bytecodes. A `multi_array` has a number, its place in the
list of all that were constructed; a destroyed one leaves `none`. What happens to the bases is logged:
`new`, the moment the last reference goes, every instruction put on the queue, every batch executed,
every `delete`. An exception ends an operation and leaves the state as it is. -/
namespace Bohrium.Bxx
open CInt Strided
set_option autoImplicit false

/-! ## Views -/

/-- The strides the constructors compute. -/
def rowMajor : List ℕ → List Dim
  | [] => []
  | n :: ns => ⟨n, (ns.prod : ℕ)⟩ :: rowMajor ns

/-- The view of a copy: the copy constructors keep the shape only. -/
def copied (v : BhView) : BhView := ⟨none, 0, rowMajor v.shape⟩

/-- `same_shape`: the loop stops one dimension early. -/
def sameShape (left right : BhView) : Bool :=
  left.ndim == right.ndim && left.shape.dropLast == right.shape.dropLast

/-- The first half of both broadcast functions: the missing dimensions are appended. -/
def stretch (lower higher : BhView) : List Dim :=
  lower.dims ++ (higher.dims.drop lower.ndim).map fun d => ⟨d.shape, 0⟩

/-- The loop of `broadcast_right` over the dimensions of `left`. -/
def broadcastRightDims : List Dim → List Dim → Bool × List Dim
  | l :: left, r :: right =>
    let r' := if r.shape < l.shape then ⟨l.shape, 0⟩ else r
    if r.shape = l.shape ∨ r.shape = 1 then
      let rest := broadcastRightDims left right
      (rest.1, r' :: rest.2)
    else (false, r' :: right)
  | _, right => (true, right)

/-- `broadcast_right`. -/
def broadcastRight (left right : BhView) : Bool × BhView :=
  let r := broadcastRightDims left.dims (stretch right left)
  (r.1, { right with dims := r.2 })

/-- The loop of `broadcast`, which may widen both operands. -/
def broadcastDims : List Dim → List Dim → Bool × List Dim × List Dim
  | l :: lower, h :: higher =>
    let l' := if l.shape < h.shape then ⟨h.shape, 0⟩ else l
    let h' := if h.shape < l.shape then ⟨l.shape, 0⟩ else h
    if l.shape = h.shape ∨ l.shape = 1 ∨ h.shape = 1 then
      let rest := broadcastDims lower higher
      (rest.1, l' :: rest.2.1, h' :: rest.2.2)
    else (false, l' :: lower, h' :: higher)
  | lower, higher => (true, lower, higher)

/-- `broadcast` of two operands. -/
def broadcast (lower higher : BhView) : Bool × BhView × BhView :=
  let r := broadcastDims (stretch lower higher) higher.dims
  (r.1, { lower with dims := r.2.1 }, { higher with dims := r.2.2 })

/-- `broadcast` of two operands to an output. -/
def broadcastTo (output lower higher : BhView) : Bool × BhView × BhView :=
  let r := broadcastRight output lower
  if r.1 then
    let b := broadcast r.2 higher
    (b.1 && sameShape output b.2.1, b.2.1, b.2.2)
  else (false, r.2, higher)

/-! ## Arrays and the runtime -/

/-- `multi_array`; `view` is its field `meta`. -/
structure MultiArray where
  type : BhType
  view : BhView
  temp : Bool := false
  sliceDim : ℤ := -1
  deriving DecidableEq, Repr

inductive Event
  /-- A new base. -/
  | create (b : BhBase)
  /-- The last `multi_array` of `b` lets go of it; `external` is its mark at that moment. -/
  | release (b : BhBase) (external : Bool)
  | instr (i : BhInstruction)
  | execute (batch : List BhInstruction)
  | delete (b : BhBase)
  deriving DecidableEq, Repr

/-- The arrays and the `Runtime`. The entry of the null pointer in `ref_count` is left out; nothing
reads it. `destroyed` logs the calls of the destructor. -/
structure Bridge where
  arrays : List (Option MultiArray) := []
  refCount : BhBase → ℤ := fun _ => 0
  external : BhBase → Bool := fun _ => false
  queue : List BhInstruction := []
  garbage : List BhBase := []
  nextBase : ℕ := 0
  log : List Event := []
  destroyed : List ℕ := []

/-- `BH_CPP_QUEUE_MAX`. -/
def queueMax : ℕ := 1000

namespace Bridge

/-- The array with number `x`, if it is alive. -/
def array? (w : Bridge) (x : ℕ) : Option MultiArray := (w.arrays[x]?).join

/-- Its view; nothing is read of an array that is not alive. -/
def view (w : Bridge) (x : ℕ) : BhView := ((w.array? x).map (·.view)).getD ⟨none, 0, []⟩

def base? (w : Bridge) (x : ℕ) : Option BhBase := (w.view x).base

def isTemp (w : Bridge) (x : ℕ) : Bool := ((w.array? x).map (·.temp)).getD false

/-- `execute`, with `deallocate_meta`. -/
def execute (w : Bridge) : Bridge :=
  { w with queue := [], garbage := [], log := w.log ++ .execute w.queue :: w.garbage.map .delete }

def guard (w : Bridge) : Bridge := if queueMax ≤ w.queue.length then w.execute else w

def flush (w : Bridge) : Bridge := if w.queue = [] then w else w.execute

/-- The first half of every `enqueue`. -/
def push (w : Bridge) (i : BhInstruction) : Bridge :=
  { w.guard with queue := w.guard.queue ++ [i], log := w.guard.log ++ [.instr i] }

/-- `bh_free` and `bh_discard` of an array that is not a temporary. -/
def system (opcode : BhOpcode) (v : BhView) : BhInstruction :=
  ⟨opcode, v, ⟨none, 0, []⟩, ⟨none, 0, []⟩, .int .int64 0⟩

/-- `BH_FREE`, unless the destructor finds that the data is external; `operator=` does not look. -/
def freeBase (checked : Bool) (w : Bridge) (v : BhView) (b : BhBase) : Bridge :=
  if checked && w.external b then { w with external := Function.update w.external b false }
  else w.push (system .free v)

/-- `BH_DISCARD`, `trash` and the end of the count. -/
def discardBase (w : Bridge) (v : BhView) (b : BhBase) : Bridge :=
  let w' := w.push (system .discard v)
  { w' with garbage := w'.garbage ++ [b], refCount := Function.update w'.refCount b 0 }

/-- `ref_count[b] -= 1`, and what the destructor and `operator=` do when it is zero. -/
def dropReference (checked : Bool) (w : Bridge) (v : BhView) : Bridge :=
  match v.base with
  | none => w
  | some b =>
    if w.refCount b = 1 then
      ({ w with
          refCount := Function.update w.refCount b 0
          log := w.log ++ [Event.release b (w.external b)] }.freeBase checked v b).discardBase v b
    else { w with refCount := Function.update w.refCount b (w.refCount b - 1) }

/-- `ref_count[b] += 1`. -/
def addReference (w : Bridge) (v : BhView) : Bridge :=
  match v.base with
  | none => w
  | some b => { w with refCount := Function.update w.refCount b (w.refCount b + 1) }

/-- The destructor. -/
def destroy (w : Bridge) (x : ℕ) : Bridge :=
  let w' := w.dropReference true (w.view x)
  { w' with arrays := w'.arrays.set x none, destroyed := w'.destroyed ++ [x] }

/-- `if (x.getTemp()) { delete &x; }`. -/
def deleteTemp (w : Bridge) (x : ℕ) : Bridge := if w.isTemp x then w.destroy x else w

/-- A constructor; the result is the number of the array. -/
def construct (w : Bridge) (a : MultiArray) : Bridge × ℕ :=
  ({ w with arrays := w.arrays ++ [some a] }, w.arrays.length)

def update (w : Bridge) (x : ℕ) (f : MultiArray → MultiArray) : Bridge :=
  { w with arrays := w.arrays.modify x fun a => a.map f }

def setTemp (w : Bridge) (x : ℕ) (temp : Bool) : Bridge := w.update x fun a => { a with temp := temp }

/-- `link`, for an array that is not linked. -/
def link (w : Bridge) (x : ℕ) : Bridge :=
  match w.array? x with
  | none => w
  | some a =>
    let b : BhBase := ⟨w.nextBase, a.type, bhNelements a.view⟩
    { w.update x fun a => { a with view := { a.view with base := some b } } with
      nextBase := w.nextBase + 1
      log := w.log ++ [.create b]
      refCount := Function.update w.refCount b (w.refCount b + 1) }

/-- `temp_view`, with the view that the caller then gives it. -/
def tempView (w : Bridge) (x : ℕ) (start : ℤ) (dims : List Dim) (sliceDim : ℤ) : Bridge × ℕ :=
  match w.array? x with
  | none => (w, w.arrays.length)
  | some a => (w.addReference a.view).construct ⟨a.type, ⟨a.view.base, start, dims⟩, true, sliceDim⟩

/-- The overloads of `enqueue`: an operand that is missing or a constant is `none`. -/
def enqueue (w : Bridge) (opcode : BhOpcode) (x₀ : ℕ) (x₁ x₂ : Option ℕ) (c : BhConstant) : Bridge :=
  let operand := fun x? : Option ℕ => (x?.map w.view).getD ⟨none, 0, []⟩
  let queued := w.push ⟨opcode, w.view x₀, operand x₁, operand x₂, c⟩
  let w₀ := if x₁.or x₂ = some x₀ then queued else queued.deleteTemp x₀
  let w₁ := x₁.elim w₀ w₀.deleteTemp
  x₂.elim w₁ w₁.deleteTemp

end Bridge

/-! ## Operations -/

/-- What an operation leaves: the state, whether it has thrown, and the temporary it returns. -/
structure Outcome where
  state : Bridge
  thrown : Bool := false
  value : Option ℕ := none

/-- The result array of the operations without an explicit one; it is no temporary until the
instruction is queued. -/
def Bridge.newResult (w : Bridge) (type : BhType) (shape : BhView) : Bridge × ℕ :=
  let c := w.construct { type := type, view := copied shape }
  (c.1.link c.2, c.2)

/-- `bh_op(res, rhs)`. -/
def unary (w : Bridge) (opcode : BhOpcode) (res rhs : ℕ) : Outcome :=
  if (w.view res).ndim < (w.view rhs).ndim then { state := w, thrown := true }
  else if sameShape (w.view res) (w.view rhs) then
    { state := w.enqueue opcode res (some rhs) none (.int .int64 0) }
  else
    let b := broadcastRight (w.view res) (copied (w.view rhs))
    let v := w.tempView rhs 0 b.2.dims (-1)
    if b.1 && sameShape (w.view res) b.2 then
      { state := v.1.enqueue opcode res (some v.2) none (.int .int64 0) }
    else { state := v.1, thrown := true }

/-- `bh_op(res, lhs, constant)` (`left`) and `bh_op(res, constant, rhs)`. -/
def binaryConst (w : Bridge) (opcode : BhOpcode) (left : Bool) (res x : ℕ) (c : BhConstant) : Outcome :=
  let enqueue := fun (w : Bridge) (y : ℕ) =>
    if left then w.enqueue opcode res (some y) none c else w.enqueue opcode res none (some y) c
  if (w.view res).ndim < (w.view x).ndim then { state := w, thrown := true }
  else if sameShape (w.view res) (w.view x) then { state := enqueue w x }
  else
    let b := broadcastRight (w.view res) (copied (w.view x))
    let v := w.tempView x 0 b.2.dims (-1)
    if b.1 && sameShape (w.view res) b.2 then { state := enqueue v.1 v.2 }
    else { state := v.1, thrown := true }

/-- The two inputs of a binary operation, widened; `output` is the explicit result that
`runtime.binary` also looks at. -/
def broadcastInputs (output : Option BhView) (lhs rhs : BhView) : Bool × BhView × BhView :=
  let f := fun lower higher => match output with
    | some out => broadcastTo out lower higher
    | none => broadcast lower higher
  if lhs.ndim < rhs.ndim then f (copied lhs) (copied rhs)
  else
    let r := f (copied rhs) (copied lhs)
    (r.1, r.2.2, r.2.1)

/-- `bh_op(res, lhs, rhs)`; the comparisons (`boolean`) broadcast their inputs only. -/
def binary (w : Bridge) (opcode : BhOpcode) (boolean : Bool) (res lhs rhs : ℕ) : Outcome :=
  if sameShape (w.view lhs) (w.view rhs) then
    if sameShape (w.view res) (w.view rhs) then
      { state := w.enqueue opcode res (some lhs) (some rhs) (.int .int64 0) }
    else { state := w, thrown := true }
  else
    let b := broadcastInputs (if boolean then none else some (w.view res)) (w.view lhs) (w.view rhs)
    let l := w.tempView lhs 0 b.2.1.dims (-1)
    let r := l.1.tempView rhs 0 b.2.2.dims (-1)
    if b.1 && sameShape (w.view res) b.2.2 then
      { state := r.1.enqueue opcode res (some l.2) (some r.2) (.int .int64 0) }
    else { state := r.1, thrown := true }

/-- `bh_op(rhs)`, and with a constant on the right or on the left. -/
def unaryNew (w : Bridge) (opcode : BhOpcode) (type : BhType) (x : ℕ) (c : BhConstant) (left : Bool) : Outcome :=
  let r := w.newResult type (w.view x)
  let w' := if left then r.1.enqueue opcode r.2 (some x) none c else r.1.enqueue opcode r.2 none (some x) c
  { state := w'.setTemp r.2 true, value := some r.2 }

/-- `bh_op(lhs, rhs)`. -/
def binaryNew (w : Bridge) (opcode : BhOpcode) (type : BhType) (lhs rhs : ℕ) : Outcome :=
  let finish := fun (w : Bridge) (shape : BhView) (left right : ℕ) =>
    let r := w.newResult type shape
    let w' := r.1.enqueue opcode r.2 (some left) (some right) (.int .int64 0)
    ({ state := w'.setTemp r.2 true, value := some r.2 } : Outcome)
  if sameShape (w.view lhs) (w.view rhs) then finish w (w.view lhs) lhs rhs
  else
    let b := broadcastInputs none (w.view lhs) (w.view rhs)
    let l := w.tempView lhs 0 b.2.1.dims (-1)
    let r := l.1.tempView rhs 0 b.2.2.dims (-1)
    if b.1 then finish r.1 b.2.1 l.2 r.2 else { state := r.1, thrown := true }

/-- `operator=` between arrays. -/
def assign (w : Bridge) (x y : ℕ) : Outcome :=
  if (w.base? x).isSome ∧ w.base? x = w.base? y then
    if w.isTemp x && w.isTemp y then unary w .identity x y
    else { state := w, thrown := w.isTemp x || w.isTemp y }
  else if w.isTemp x then unary w .identity x y
  else
    let dropped := w.dropReference false (w.view x)
    let aliased := (dropped.update x fun a => { a with view := w.view y }).addReference (w.view y)
    { state := aliased.deleteTemp y }

/-- `operator=` with a constant. -/
def assignConst (w : Bridge) (x : ℕ) (c : BhConstant) : Outcome :=
  if (w.base? x).isSome then { state := w.enqueue .identity x none none c }
  else if (w.view x).ndim ≠ 0 then { state := (w.link x).enqueue .identity x none none c }
  else { state := w, thrown := true }

/-- `operator[]`; its `int` variables hold 32 bits, the step is a `size_t`. -/
def slice (w : Bridge) (x : ℕ) (first last : ℤ) (step : ℕ) : Outcome :=
  match w.array? x with
  | none => { state := w, thrown := true }
  | some a =>
    let dim := (a.sliceDim + 1).toNat
    match a.view.base, a.view.dims[dim]? with
    | some _, some d =>
      let stride := toInt32 d.stride
      let shape := toInt32 d.shape
      let start := toInt32 a.view.start
      let first := if first < 0 then toInt32 (shape + first) else first
      let last := if last < 0 then toInt32 (shape + last) else last
      let dims := (rowMajor a.view.shape).set dim
        ⟨1 + (toInt32 (last - first) % 2 ^ 64).toNat / step, Int.bmod (stride * step) (2 ^ 64)⟩
      let v := w.tempView x (toInt32 (start + toInt32 (stride * first))) dims
        (if a.view.ndim - 1 = dim then -1 else dim)
      { state := v.1.deleteTemp x, value := some v.2 }
    | _, _ => { state := w, thrown := true }

/-- `view_as`. -/
def viewAs (w : Bridge) (x : ℕ) (shape : List ℕ) : Outcome :=
  if (w.base? x).isNone then { state := w, thrown := true }
  else
    let v := w.tempView x 0 (rowMajor shape) (-1)
    if shape.prod = bhNelements (w.view x) then { state := v.1.deleteTemp x, value := some v.2 }
    else { state := v.1, thrown := true }

/-- `transpose`. -/
def transpose (w : Bridge) (x : ℕ) : Outcome :=
  if (w.base? x).isNone then { state := w, thrown := true }
  else
    let v := w.tempView x 0 (w.view x).dims.reverse (-1)
    { state := v.1, value := some v.2 }

/-- `scalar`. -/
def scalar (w : Bridge) (x : ℕ) : Outcome :=
  let synced := ((w.setTemp x false).enqueue .sync x none none (.int .int64 0)).flush
  { state := if w.isTemp x then (synced.destroy x).flush else synced }

inductive Action
  /-- The constructors from a shape, the copy constructor, and the one of the C bridge on a base. -/
  | construct (type : BhType) (shape : List ℕ)
  | copy (x : ℕ)
  | constructOn (x : ℕ) (start : ℤ) (dims : List Dim)
  | link (x : ℕ)
  | linkTo (x y : ℕ)
  | setExternal (x : ℕ) (value : Bool)
  | assign (x y : ℕ)
  | assignConst (x : ℕ) (c : BhConstant)
  | slice (x : ℕ) (first last : ℤ) (step : ℕ)
  | viewAs (x : ℕ) (shape : List ℕ)
  | transpose (x : ℕ)
  | unary (opcode : BhOpcode) (res rhs : ℕ)
  | fill (opcode : BhOpcode) (res : ℕ) (c : BhConstant)
  | binary (opcode : BhOpcode) (boolean : Bool) (res lhs rhs : ℕ)
  | binaryConst (opcode : BhOpcode) (left : Bool) (res x : ℕ) (c : BhConstant)
  | unaryNew (opcode : BhOpcode) (type : BhType) (x : ℕ) (c : BhConstant) (left : Bool)
  | binaryNew (opcode : BhOpcode) (type : BhType) (lhs rhs : ℕ)
  /-- `x op= y` and `x op= constant`. -/
  | update (opcode : BhOpcode) (x y : ℕ)
  | updateConst (opcode : BhOpcode) (x : ℕ) (c : BhConstant)
  | scalar (x : ℕ)
  /-- The end of the scope of an array. -/
  | destroy (x : ℕ)
  deriving DecidableEq, Repr

def Bridge.step (w : Bridge) : Action → Outcome
  | .construct type shape =>
    let c := w.construct { type := type, view := ⟨none, 0, rowMajor shape⟩ }
    { state := c.1 }
  | .copy x =>
    match w.array? x with
    | none => { state := w, thrown := true }
    | some a => { state := (w.construct { type := a.type, view := copied a.view }).1 }
  | .constructOn x start dims =>
    match w.array? x with
    | none => { state := w, thrown := true }
    | some a =>
      { state := ((w.addReference a.view).construct { type := a.type, view := ⟨a.view.base, start, dims⟩ }).1 }
  | .link x => if (w.base? x).isSome then { state := w, thrown := true } else { state := w.link x }
  | .linkTo x y =>
    if (w.base? x).isSome then { state := w, thrown := true }
    else { state := w.update x fun a => { a with view := { a.view with base := w.base? y } } }
  | .setExternal x value =>
    match w.base? x with
    | none => { state := w }
    | some b => { state := { w with external := Function.update w.external b value } }
  | .assign x y => Bxx.assign w x y
  | .assignConst x c => Bxx.assignConst w x c
  | .slice x first last step => Bxx.slice w x first last step
  | .viewAs x shape => Bxx.viewAs w x shape
  | .transpose x => Bxx.transpose w x
  | .unary opcode res rhs => Bxx.unary w opcode res rhs
  | .fill opcode res c => { state := w.enqueue opcode res none none c }
  | .binary opcode boolean res lhs rhs => Bxx.binary w opcode boolean res lhs rhs
  | .binaryConst opcode left res x c => Bxx.binaryConst w opcode left res x c
  | .unaryNew opcode type x c left => Bxx.unaryNew w opcode type x c left
  | .binaryNew opcode type lhs rhs => Bxx.binaryNew w opcode type lhs rhs
  | .update opcode x y => Bxx.binary w opcode false x x y
  | .updateConst opcode x c => Bxx.binaryConst w opcode true x x c
  | .scalar x => Bxx.scalar w x
  | .destroy x => { state := w.destroy x }

end Bohrium.Bxx
