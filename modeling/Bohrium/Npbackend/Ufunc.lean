import Bohrium.Library.Elementwise
import Bohrium.Library.Layout

/-! # Elementwise operations on overlapping views

`ufunc.py` of the NumPy bridge: `overlap_conflict`, `assign`, `setitem` and `Ufunc.__call__`, with
`broadcast_arrays` and `identical_views`. NumPy and the runtime are parameters. What a base array holds is
one map: where its elements are kept at the moment does not matter here. -/
namespace Bohrium.Npbackend.Ufunc
open Strided Layout
set_option autoImplicit false

/-! ## Arrays -/

/-- A `numpy.ndarray` on top of the base array `base`; positions count the elements of the base. -/
structure NpArray where
  base : ℕ
  dtype : ℕ
  data : ℤ
  dims : List Dim
  deriving DecidableEq, Repr

namespace NpArray

variable (a : NpArray)

def shape : List ℕ := a.dims.map Dim.shape

def strides : List ℤ := a.dims.map Dim.stride

def ndim : ℕ := a.dims.length

/-- Where an element lies. -/
def cell (idx : List ℕ) : ℕ × ℤ := (a.base, a.data + Strided.dot a.dims idx)

end NpArray

/-- An argument: `np.isscalar` tells the two apart. -/
inductive Operand (V : Type)
  | scalar (v : V) (dtype : ℕ)
  | array (a : NpArray)

/-- An item between the brackets of a subscript. -/
inductive Loc
  | index (i : ℤ)
  | slice (start stop step : Option ℤ)
  | ellipsis
  | newaxis
  deriving DecidableEq, Repr

def Loc.isIndex : Loc → Bool
  | index _ => true
  | _ => false

/-- An entry of `_info.op`; `setup.py` takes the elementwise opcodes. -/
structure Info where
  name : String
  nop : ℕ
  typeSig : List (ℕ × ℕ)
  operands : nop = 2 ∨ nop = 3

inductive UfuncError
  | invalidNumber
  | shapeMismatch
  | nonBroadcastableOutput (last : List ℕ) (out : List ℕ)
  | attributeError
  | outputMustBeBohrium
  | moreThanTwoInputs
  | unsupportedType (name : String) (dtype : ℕ)
  | typeError
  | indexError
  | recursionError
  deriving DecidableEq, Repr

structure State (V : Type) where
  mem : ℕ × ℤ → V
  /-- Whether the base has a `bhc_ary`. -/
  bohrium : ℕ → Bool
  nbase : ℕ
  executed : ℕ

/-- What the bridge takes from NumPy and from the runtime. -/
structure Environment (V : Type) where
  broadcastArrays : List (Operand V) → Option (List NpArray)
  mayShareMemory : NpArray → NpArray → Bool
  getitem : NpArray → List Loc → Option NpArray
  resultType : List (ℕ ⊕ V) → ℕ
  /-- The types of the result and of the inputs that a function of NumPy chooses. -/
  signature : String → List (ℕ ⊕ V) → Option (ℕ × ℕ)
  isTwo : V → Bool
  convert : ℕ → ℕ → V → V
  apply : String → ℕ → List V → V
  /-- The order in which the elements of an instruction are executed. -/
  order : ℕ → List (List ℕ) → List (List ℕ)

section Model
variable {V : Type} (E : Environment V)

/-- `ndarray.check`. -/
def check (s : State V) (a : NpArray) : Bool := s.bohrium a.base

def Operand.check (s : State V) : Operand V → Bool
  | .scalar _ _ => false
  | .array a => Ufunc.check s a

def identicalViews (view1 view2 : NpArray) : Bool :=
  view1.dtype == view2.dtype && (if 0 < view1.ndim then view1.ndim else 1) == (if 0 < view2.ndim then view2.ndim else 1) &&
    view1.shape == view2.shape && view1.strides == view2.strides

/-- `broadcast_arrays`: the arrays that need no broadcasting are the arguments themselves. -/
def broadcastArrays (args : List (Operand V)) : Option (List NpArray) :=
  (E.broadcastArrays args).map fun bargs => List.zipWith (fun
    | .scalar _ _, b => b
    | .array a, b => if identicalViews a b then a else b) args bargs

def overlapConflict (out : NpArray) (inputs : List (Operand V)) : Bool :=
  inputs.any fun
    | .scalar _ _ => false
    | .array i => E.mayShareMemory out i &&
      !(out.ndim == i.ndim && out.strides == i.strides && out.shape == i.shape && (out.base, out.data) == (i.base, i.data))

/-- `array_create.empty`. The content is arbitrary. -/
def empty (s : State V) (shape : List ℕ) (dtype : ℕ) (bohrium : Bool) : NpArray × State V :=
  (⟨s.nbase, dtype, 0, packed shape⟩,
    { s with bohrium := Function.update s.bohrium s.nbase bohrium, nbase := s.nbase + 1 })

def emptyLike (s : State V) (a : NpArray) (dtype : ℕ) : NpArray × State V := empty s a.shape dtype (check s a)

/-- `array_create.array` of a NumPy array. -/
def arrayOf (s : State V) (a : NpArray) : NpArray × State V :=
  let (ret, s) := empty s a.shape a.dtype true
  (ret, { s with mem := Elementwise.run ret.cell (fun m idx => m (a.cell idx)) (indices a.shape) s.mem })

/-! ## Instructions -/

/-- An elementwise instruction. -/
def execute (s : State V) (out : NpArray) (val : (ℕ × ℤ → V) → List ℕ → V) : State V :=
  { s with mem := Elementwise.run out.cell val (E.order s.executed (indices out.shape)) s.mem, executed := s.executed + 1 }

/-- An element of an input that has the shape of the result. -/
def Operand.read (dtype : ℕ) (m : ℕ × ℤ → V) (idx : List ℕ) : Operand V → V
  | .scalar v d => E.convert d dtype v
  | .array a => E.convert a.dtype dtype (m (a.cell idx))

def Operand.dtype : Operand V → ℕ
  | .scalar _ d => d
  | .array a => a.dtype

/-- The type in the name of the command: that of the last array, else of the first scalar. -/
def commandType (ins : List (Operand V)) : ℕ :=
  ins.foldl (fun d x => match x with
    | .scalar _ _ => d
    | .array a => a.dtype) (ins.head?.elim 0 Operand.dtype)

/-- `target.ufunc`. -/
def targetUfunc (s : State V) (name : String) (out : NpArray) (ins : List (Operand V)) : State V :=
  execute E s out fun m idx => E.apply name (commandType ins) (ins.map (Operand.read E (commandType ins) m idx))

/-- `target.ufunc` of `identity`, which converts, and `out[...] = ary` of NumPy. -/
def targetIdentity (s : State V) (out : NpArray) (ary : Operand V) : State V :=
  execute E s out fun m idx => ary.read E out.dtype m idx

/-! ## Assignments -/

/-- `get_bhc` for an argument: a NumPy array is copied first. -/
def toBhc (s : State V) : Operand V → Operand V × State V
  | .scalar v d => (.scalar v d, s)
  | .array a =>
    if check s a then (.array a, s)
    else
      let (a, s) := arrayOf s a
      (.array a, s)

/-- The end of `assign`. -/
def copyTo (s : State V) (ary : Operand V) (out : NpArray) : State V :=
  if check s out then
    let (ary, s) := toBhc s ary
    targetIdentity E s out ary
  else targetIdentity E s out ary

def broadcastPair (ary : Operand V) (out : NpArray) : Option (Operand V × NpArray) :=
  match ary with
  | .scalar v d => some (.scalar v d, out)
  | .array a =>
    match broadcastArrays E [.array a, .array out] with
    | some [a, out] => some (.array a, out)
    | _ => none

/-- `assign`; `depth` bounds the recursion. -/
def assign : ℕ → Operand V → NpArray → State V → Except UfuncError Unit × State V
  | 0, _, _, s => (.error .recursionError, s)
  | depth + 1, ary, out, s =>
    match broadcastPair E ary out with
    | none => (.error .shapeMismatch, s)
    | some (ary, out) =>
      if overlapConflict E out [ary] then
        let (tmp, s) := emptyLike s out out.dtype
        match assign depth ary tmp s with
        | (.error e, s) => (.error e, s)
        | (.ok _, s) => assign depth (.array tmp) out s
      else (.ok (), copyTo E s ary out)

/-- `setitem`. -/
def setitem (depth : ℕ) (ary : NpArray) (loc : List Loc) (value : Operand V) (s : State V) :
    Except UfuncError Unit × State V :=
  let loc? := if loc.length = ary.ndim ∧ loc.all Loc.isIndex then
      match loc with
      | .index i :: rest =>
        let i := if i < 0 then i + ary.shape.headD 0 else i
        some (.slice (some i) (some (i + 1)) none :: rest)
      | _ => none
    else some loc
  match loc? with
  | none => (.error .indexError, s)
  | some loc =>
    if ary.ndim = 0 then assign E depth value ary s
    else
      match E.getitem ary loc with
      | none => (.error .indexError, s)
      | some view => assign E depth value view s

/-! ## Calls -/

/-- `getattr(t, 'dtype', t)`. -/
def Operand.typeOrSelf : Operand V → ℕ ⊕ V
  | .scalar v _ => .inr v
  | .array a => .inl a.dtype

/-- `_util.type_sig`. -/
def typeSig (info : Info) (inputs : List (Operand V)) : Except UfuncError (ℕ × ℕ) :=
  let dtype := E.resultType (inputs.map Operand.typeOrSelf)
  match info.typeSig.find? fun sig => sig.2 == dtype with
  | some sig => .ok sig
  | none => .error (.unsupportedType info.name dtype)

/-- An input of another type is converted into a new array. -/
def convertInput (depth dtype : ℕ) (s : State V) : Operand V → Except UfuncError (Operand V) × State V
  | .scalar v d => (.ok (.scalar v d), s)
  | .array a =>
    if a.dtype = dtype then (.ok (.array a), s)
    else
      let (tmp, s) := emptyLike s a dtype
      if check s tmp then
        match setitem E depth tmp [.ellipsis] (.array a) s with
        | (.error e, s) => (.error e, s)
        | (.ok _, s) => (.ok (.array tmp), s)
      else (.ok (.array tmp), targetIdentity E s tmp (.array a))

def convertInputs (depth dtype : ℕ) : List (Operand V) → State V → Except UfuncError (List (Operand V)) × State V
  | [], s => (.ok [], s)
  | x :: xs, s =>
    match convertInput E depth dtype s x with
    | (.error e, s) => (.error e, s)
    | (.ok y, s) =>
      match convertInputs depth dtype xs s with
      | (.error e, s) => (.error e, s)
      | (.ok ys, s) => (.ok (y :: ys), s)

def toBhcs : List (Operand V) → State V → List (Operand V) × State V
  | [], s => ([], s)
  | x :: xs, s =>
    let (y, s) := toBhc s x
    let (ys, s) := toBhcs xs s
    (y :: ys, s)

/-- The instruction; a power of two is a multiplication. -/
def enqueue (info : Info) (s : State V) (target : NpArray) (bhcs : List (Operand V)) : State V :=
  match bhcs with
  | [x, .scalar v _] =>
    if info.name = "power" ∧ E.isTwo v then targetUfunc E s "multiply" target [x, x]
    else targetUfunc E s info.name target bhcs
  | _ => targetUfunc E s info.name target bhcs

/-- `__call__` from `type_sig` on. -/
def launch (depth : ℕ) (info : Info) (args : List (Operand V)) (out : Option NpArray) (outShape : List ℕ) (s : State V) :
    Except UfuncError NpArray × State V :=
  if 2 < args.length then (.error .moreThanTwoInputs, s)
  else
    match typeSig E info args with
    | .error e => (.error e, s)
    | .ok (outDtype, inDtype) =>
      match convertInputs E depth inDtype args s with
      | (.error e, s) => (.error e, s)
      | (.ok args, s) =>
        match out with
        | none =>
          let (target, s) := empty s outShape outDtype true
          let (bhcs, s) := toBhcs args s
          (.ok target, enqueue E info s target bhcs)
        | some out =>
          if outDtype = out.dtype then
            let (bhcs, s) := toBhcs args s
            (.ok out, enqueue E info s out bhcs)
          else
            let (target, s) := empty s outShape outDtype true
            let (bhcs, s) := toBhcs args s
            match assign E depth (.array target) out (enqueue E info s target bhcs) with
            | (.error e, s) => (.error e, s)
            | (.ok _, s) => (.ok out, s)

/-- `np.<name>(*args)`, where no operand is a Bohrium array. -/
def numpyCall (info : Info) (args : List (Operand V)) (out : Option NpArray) (outShape : List ℕ) (s : State V) :
    Except UfuncError NpArray × State V :=
  match E.signature info.name (args.map Operand.typeOrSelf) with
  | none => (.error .typeError, s)
  | some (outDtype, inDtype) =>
    let (target, s) := match out with
      | some out => (out, s)
      | none => empty s outShape outDtype false
    (.ok target, execute E s target fun m idx =>
      E.convert outDtype target.dtype (E.apply info.name inDtype (args.map (Operand.read E inDtype m idx))))

/-- Scalars are not replaced. -/
def Operand.broadcasted : Operand V → NpArray → Operand V
  | .scalar v d, _ => .scalar v d
  | .array _, b => .array b

/-- `__call__` once a conflict is ruled out. -/
def compute (depth : ℕ) (info : Info) (args : List (Operand V)) (bargs : List NpArray) (out : Option NpArray)
    (outShape : List ℕ) (s : State V) : Except UfuncError NpArray × State V :=
  let args := List.zipWith Operand.broadcasted args bargs
  if args.any (Operand.check s) then
    if out.any fun out => !check s out then (.error .outputMustBeBohrium, s)
    else launch E depth info args out outShape s
  else if out.any (check s) then launch E depth info args out outShape s
  else numpyCall E info args out outShape s

/-- `Ufunc.__call__`. -/
def call : ℕ → Info → List (Operand V) → Option NpArray → State V → Except UfuncError NpArray × State V
  | 0, _, _, _, s => (.error .recursionError, s)
  | depth + 1, info, args, out, s =>
    if args.length + 1 ≠ info.nop then (.error .invalidNumber, s)
    else
      match broadcastArrays E (args ++ out.toList.map .array) with
      | none => (.error .shapeMismatch, s)
      | some bargs =>
        let outShape := (bargs.getLast?.map NpArray.shape).getD []
        match out with
        | none => compute E depth info args bargs none outShape s
        | some out =>
          if outShape ≠ out.shape then
            match args.getLast? with
            | some (.array last) => (.error (.nonBroadcastableOutput last.shape out.shape), s)
            | _ => (.error .attributeError, s)
          else if overlapConflict E out args then
            match call depth info args none s with
            | (.error e, s) => (.error e, s)
            | (.ok tmp, s) =>
              match assign E depth (.array tmp) out s with
              | (.error e, s) => (.error e, s)
              | (.ok _, s) => (.ok out, s)
          else compute E depth info args bargs (some out) outShape s

end Model

end Bohrium.Npbackend.Ufunc
