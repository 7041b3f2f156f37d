import Mathlib.Algebra.Order.Ring.Int
import Mathlib.Data.List.Forall2
import Mathlib.Logic.Function.Basic

/-! # Arrays with two copies

`bohrium.ndarray` of the NumPy bridge (`bridge/npbackend`: `ndarray.pyx`, `src/_bhmodule.c`,
`target/target_bhc.py`). A base array has its elements in NumPy memory or in a Bohrium-C array; while it has a
Bohrium-C array its memory is protected, and a fault moves the elements back. -/
namespace Bohrium.Npbackend
set_option autoImplicit false

/-! ## The state -/

/-- `target.View`; no base for a view without elements. -/
structure TargetView where
  ndim : ℕ
  start : ℤ
  shape : List ℕ
  strides : List ℤ
  base : Option ℕ
  deriving DecidableEq, Repr

/-- A `bohrium.ndarray`, base or view. The address is counted in bytes from that of the base, as are the
strides; `base` is what `get_base` finds. -/
structure Ndarray where
  base : ℕ
  data : ℤ
  shape : List ℕ
  strides : List ℤ
  itemsize : ℕ
  bhcAry : Option ℕ := none
  bhcAryVersion : ℕ := 0
  bhcView : Option TargetView := none
  bhcViewVersion : Option ℕ := none
  deriving DecidableEq, Repr

namespace Ndarray

def size (a : Ndarray) : ℕ := a.shape.prod

def nbytes (a : Ndarray) : ℕ := a.size * a.itemsize

end Ndarray

/-- The distance of an index from the first element. -/
def dot (idx : List ℕ) (strides : List ℤ) : ℤ := ((idx.zip strides).map fun p => (p.1 : ℤ) * p.2).sum

/-- The element of the base that NumPy finds at an index. -/
def Ndarray.elem (a : Ndarray) (idx : List ℕ) : ℕ := ((a.data + dot idx a.strides) / a.itemsize).toNat

/-- The element that Bohrium-C finds there. -/
def TargetView.elem (w : TargetView) (idx : List ℕ) : ℕ := (w.start + dot idx w.strides).toNat

/-- The NumPy memory of a base: its elements, its protection, and whether the fault handler knows it. -/
structure Memory (V : Type) where
  content : ℕ → V
  prot : Bool
  attached : Bool

/-- A base array of the runtime: its data, if there is any, and the writes still queued. -/
structure BhcBase (V : Type) where
  data : Option (ℕ → V) := none
  queue : List (ℕ × V) := []

structure State (V : Type) where
  arrays : ℕ → Ndarray
  narrays : ℕ
  memory : ℕ → Memory V
  bhc : ℕ → BhcBase V
  nbhc : ℕ

inductive PyError
  | typeError (message : String)
  | valueError (message : String)
  | recursionError
  | segmentationFault
  deriving DecidableEq, Repr

section
variable {V : Type}

namespace State

def setArray (s : State V) (a : ℕ) (x : Ndarray) : State V := { s with arrays := Function.update s.arrays a x }

def setMemory (s : State V) (b : ℕ) (m : Memory V) : State V := { s with memory := Function.update s.memory b m }

def setBhc (s : State V) (h : ℕ) (x : BhcBase V) : State V := { s with bhc := Function.update s.bhc h x }

/-- `get_base`. -/
def getBase (s : State V) (a : ℕ) : ℕ := (s.arrays a).base

end State

/-! ## The runtime -/

section Runtime
variable (junk : ℕ → V)

/-- The queued writes executed. -/
def BhcBase.flushed (x : BhcBase V) : ℕ → V :=
  x.queue.foldl (fun c w => Function.update c w.1 w.2) (x.data.getD junk)

/-- `bh_runtime_flush`: executing a write allocates the data. -/
def BhcBase.flush (x : BhcBase V) : BhcBase V :=
  if x.queue = [] then x else { data := some (x.flushed junk), queue := [] }

/-- `target.get_data_pointer`: what the pointer points at, `none` for `NULL`. -/
def getDataPointer (s : State V) (w : TargetView) (allocate nullify : Bool) : Option (ℕ → V) × State V :=
  match w.base with
  | none => (none, s)
  | some h =>
    if w.shape.prod = 0 then (none, s)
    else
      let x := (s.bhc h).flush junk
      let x := if x.data.isNone && allocate then { x with data := some junk } else x
      (x.data, s.setBhc h (if nullify then { x with data := none } else x))

end Runtime

/-! ## Python -/

def identicalViews (a : Ndarray) (w : TargetView) : Bool :=
  max 1 a.shape.length == max 1 w.ndim && a.shape == w.shape && a.strides == w.strides

/-- The geometry of `a` in elements, as `get_bhc` computes it. -/
def elementView (a : Ndarray) (size : ℕ) : Except PyError (ℤ × List ℤ) :=
  if a.data % a.itemsize ≠ 0 then .error (.typeError "The view offset must be element aligned")
  else if ¬ (0 ≤ a.data / a.itemsize ∧ a.data / a.itemsize < size) then
    .error (.typeError "The view offset is greater than the total number of elements in the base!")
  else if a.strides.any fun stride => stride % a.itemsize ≠ 0 then
    .error (.typeError "The strides must be element aligned")
  else .ok (a.data / a.itemsize, a.strides.map (· / a.itemsize))

/-- The last lines of `get_bhc`: a new `target.View`, kept with the array. -/
def newView (s : State V) (a : ℕ) (offset : ℤ) (strides : List ℤ) : TargetView × State V :=
  let ary := s.arrays a
  let ret : TargetView :=
    { ndim := if 0 < ary.shape.length then ary.shape.length else 1
      start := offset
      shape := if 0 < ary.shape.length then ary.shape else [1]
      strides := if 0 < strides.length then strides else [1]
      base := (s.arrays ary.base).bhcAry }
  (ret, s.setArray a { ary with
    bhcView := some ret
    bhcViewVersion := some (s.arrays ary.base).bhcAryVersion })

section Moves
variable (move : State V → ℕ → Except PyError (State V))

/-- `get_bhc` behind the cache; `move` is `_data_np2bhc`. All arrays here are behaved and have the type of
their base. -/
def makeView (s : State V) (a : ℕ) : Except PyError (TargetView × State V) :=
  let ary := s.arrays a
  if 0 ∈ ary.shape then .ok (newView s a 0 (ary.shape.map fun _ => 0))
  else if ¬ (0 ≤ ary.data ∧ ary.data < (s.arrays ary.base).nbytes) then
    .error (.valueError "The view must point to data within the base array")
  else do
    let s ← if (s.arrays ary.base).bhcAry.isNone then move s ary.base else pure s
    let (offset, strides) ← elementView ary (s.arrays ary.base).size
    pure (newView s a offset strides)

/-- `get_bhc`. -/
def getBhc (s : State V) (a : ℕ) : Except PyError (TargetView × State V) :=
  let ary := s.arrays a
  match ary.bhcView with
  | none => makeView move s a
  | some w =>
    if ary.bhcViewVersion = some (s.arrays ary.base).bhcAryVersion then
      if identicalViews ary w then .ok (w, s) else makeView move (s.setArray a { ary with bhcView := none }) a
    else makeView move s a

end Moves

/-- `new_bhc_base`. -/
def newBhcBase (s : State V) (b : ℕ) : Except PyError (State V) :=
  if (s.arrays b).base ≠ b then .error (.valueError "Views do not have a Bohrium-C base array")
  else if (s.arrays b).bhcAry.isSome then .error (.valueError "The array has a Bohrium-C base array already")
  else .ok { (s.setArray b { s.arrays b with bhcAry := some s.nbhc }).setBhc s.nbhc {} with nbhc := s.nbhc + 1 }

/-- `del_bhc`. -/
def delBhc (s : State V) (a : ℕ) : State V :=
  let b := s.getBase a
  let s := s.setArray a { s.arrays a with bhcAry := none, bhcView := none }
  let s := s.setArray b { s.arrays b with bhcAry := none, bhcView := none }
  s.setArray b { s.arrays b with bhcAryVersion := (s.arrays b).bhcAryVersion + 1 }

/-! ## C -/

/-- `_munprotect`. -/
def munprotect (s : State V) (b : ℕ) : State V := s.setMemory b { s.memory b with prot := false }

/-- `bh_mem_signal_detach`. -/
def detach (s : State V) (b : ℕ) : State V := s.setMemory b { s.memory b with attached := false }

/-- `_mprotect_np_part`. -/
def mprotectNpPart (s : State V) (b : ℕ) : State V := s.setMemory b { s.memory b with prot := true, attached := true }

/-- `_mremap_data`: the pages of the data take the place of the protected ones. -/
def mremapData (s : State V) (b : ℕ) (d : ℕ → V) : State V :=
  s.setMemory b { s.memory b with content := d, prot := false }

section C
variable (junk : ℕ → V)

/-- `target.set_bhc_data_from_ary`, which copies the memory of `b` behind the data pointer. -/
def setBhcDataFromAry (s : State V) (w : TargetView) (b : ℕ) : State V :=
  let (_, s) := getDataPointer junk s w true false
  match w.base with
  | none => s
  | some h => s.setBhc h { s.bhc h with data := some (s.memory b).content }

/-- `BhArray_data_np2bhc`; Python stops a recursion that is too deep. -/
def dataNp2bhc : ℕ → State V → ℕ → Except PyError (State V)
  | 0, _, _ => .error .recursionError
  | depth + 1, s, a => do
    let b := s.getBase a
    let s ← if (s.arrays b).bhcAry.isNone then newBhcBase s b else pure s
    let s := munprotect (detach s b) b
    let (w, s) ← getBhc (dataNp2bhc depth) s b
    pure (mprotectNpPart (setBhcDataFromAry junk s w b) b)

/-- The recursion limit of Python. -/
def recursionLimit : ℕ := 1000

/-- `BhArray_data_bhc2np`. -/
def dataBhc2np (s : State V) (a : ℕ) : Except PyError (State V) := do
  let b := s.getBase a
  let s := detach s b
  let (w, s) ← getBhc (dataNp2bhc junk recursionLimit) s b
  let (d, s) := getDataPointer junk s w false true
  let s := match d with
    | some d => mremapData s b d
    | none => munprotect s b
  pure (delBhc s a)

/-- An access to the memory of `b` by NumPy: a fault runs `mem_access_callback` with the attached base. That the handler of
`bh_mem_signal.cpp` finds the segment of the address is assumed here. -/
def touch (s : State V) (b : ℕ) : Except PyError (State V) :=
  if (s.memory b).prot then
    if (s.memory b).attached then dataBhc2np junk s b else .error .segmentationFault
  else pure s

/-! ## Operations -/

/-- Strides in C order, in bytes. -/
def contiguous (itemsize : ℕ) : List ℕ → List ℤ
  | [] => []
  | _ :: shape => (shape.prod * itemsize : ℕ) :: contiguous itemsize shape

/-- What a program does with arrays: make one, with a Bohrium-C array or without, make a view, read or write
an element through `get_bhc` or through NumPy, index with an integer, or call `_data_bhc2np`. -/
inductive Op (V : Type)
  | create (shape : List ℕ) (itemsize : ℕ) (bhc : Bool)
  | view (a : ℕ) (data : ℤ) (shape : List ℕ) (strides : List ℤ)
  | bhcRead (a : ℕ) (idx : List ℕ)
  | bhcWrite (a : ℕ) (idx : List ℕ) (x : V)
  | npRead (a : ℕ) (idx : List ℕ)
  | npWrite (a : ℕ) (idx : List ℕ) (x : V)
  | getItem (a : ℕ) (idx : List ℕ)
  | bhc2np (a : ℕ)

/-- `BhArray_new`, with `_protected_malloc`. -/
def bhArrayNew (s : State V) (shape : List ℕ) (itemsize : ℕ) : State V :=
  { (s.setArray s.narrays
      { base := s.narrays, data := 0, shape := shape, strides := contiguous itemsize shape, itemsize := itemsize }).setMemory
        s.narrays ⟨junk, true, true⟩ with narrays := s.narrays + 1 }

def npRead (s : State V) (a : ℕ) (idx : List ℕ) : Except PyError (Option V × State V) := do
  let s ← touch junk s (s.getBase a)
  pure (some ((s.memory (s.getBase a)).content ((s.arrays a).elem idx)), s)

/-- An operation, with the element that it reads. -/
def step (s : State V) : Op V → Except PyError (Option V × State V)
  | .create shape itemsize bhc => do
    let s' := bhArrayNew junk s shape itemsize
    if bhc then
      let s' ← newBhcBase s' s.narrays
      pure (none, s')
    else pure (none, s')
  | .view a data shape strides =>
    let x : Ndarray :=
      { base := s.getBase a, data := data, shape := shape, strides := strides, itemsize := (s.arrays a).itemsize }
    pure (none, { s.setArray s.narrays x with narrays := s.narrays + 1 })
  | .bhcRead a idx => do
    let (w, s) ← getBhc (dataNp2bhc junk recursionLimit) s a
    pure (w.base.map fun h => (s.bhc h).flushed junk (w.elem idx), s)
  | .bhcWrite a idx x => do
    let (w, s) ← getBhc (dataNp2bhc junk recursionLimit) s a
    match w.base with
    | some h => pure (none, s.setBhc h { s.bhc h with queue := (s.bhc h).queue ++ [(w.elem idx, x)] })
    | none => pure (none, s)
  | .npRead a idx => npRead junk s a idx
  | .npWrite a idx x => do
    let s ← touch junk s (s.getBase a)
    let m := s.memory (s.getBase a)
    pure (none, s.setMemory (s.getBase a) { m with content := Function.update m.content ((s.arrays a).elem idx) x })
  | .getItem a idx => do
    let s ← dataBhc2np junk s a
    npRead junk s a idx
  | .bhc2np a => do
    let s ← dataBhc2np junk s a
    pure (none, s)

end C

/-! ## Runs -/

def InBounds (idx shape : List ℕ) : Prop := List.Forall₂ (· < ·) idx shape

/-- What NumPy promises of the arrays and views it makes: they have elements, and these are elements of the
base. -/
def Op.Valid (s : State V) : Op V → Prop
  | .create shape itemsize _ => 0 < itemsize ∧ 0 ∉ shape
  | .view a data shape strides => a < s.narrays ∧ 0 ∉ shape ∧ strides.length = shape.length ∧
    data % ((s.arrays a).itemsize : ℤ) = 0 ∧ (∀ stride ∈ strides, stride % ((s.arrays a).itemsize : ℤ) = 0) ∧
      ∀ idx, InBounds idx shape → 0 ≤ data + dot idx strides ∧ data + dot idx strides < (s.arrays (s.getBase a)).nbytes
  | .bhcRead a idx | .bhcWrite a idx _ | .npRead a idx | .npWrite a idx _ | .getItem a idx =>
    a < s.narrays ∧ InBounds idx (s.arrays a).shape
  | .bhc2np a => a < s.narrays

/-- The element of which base an operation reads. -/
def Op.reads (s : State V) : Op V → Option (ℕ × ℕ)
  | .bhcRead a idx | .npRead a idx | .getItem a idx => some (s.getBase a, (s.arrays a).elem idx)
  | _ => none

/-- The last value written to every element of every base; none since the base was made. -/
def Op.record (s : State V) (written : ℕ → ℕ → Option V) : Op V → ℕ → ℕ → Option V
  | .create _ _ _ => Function.update written s.narrays fun _ => none
  | .bhcWrite a idx x | .npWrite a idx x =>
    Function.update written (s.getBase a) (Function.update (written (s.getBase a)) ((s.arrays a).elem idx) (some x))
  | _ => written

/-- Before the first array. -/
def State.initial (junk : ℕ → V) : State V where
  arrays := fun _ => { base := 0, data := 0, shape := [], strides := [], itemsize := 1 }
  narrays := 0
  memory := fun _ => ⟨junk, false, false⟩
  bhc := fun _ => {}
  nbhc := 0

/-- The states that sequences of operations lead to, with what was written last. -/
inductive Reachable (junk : ℕ → V) : State V → (ℕ → ℕ → Option V) → Prop
  | initial : Reachable junk (State.initial junk) fun _ _ => none
  | step {s s' : State V} {written : ℕ → ℕ → Option V} {op : Op V} {out : Option V} : Reachable junk s written →
    op.Valid s → step junk s op = .ok (out, s') → Reachable junk s' (op.record s written)

end

end Bohrium.Npbackend
