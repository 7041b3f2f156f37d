import Bohrium.Cpu.Lowering
import Bohrium.Library.Walk

/-! # The walkers of the CPU engine

The loops of a generated kernel: `Block::update_iterspace` (`ve/cpu/block.cpp`), `Walker::generate_source`
and the functions it fills the templates with (`ve/cpu/codegen/walker.cpp`, `ve/cpu/templates`). A walker is
followed through its visits: at each of them the operations of the kernel are applied to what the operand
pointers point at. -/
namespace Bohrium.Cpu
open Engine Strided Walk
set_option autoImplicit false

/-! ## Kernels -/

/-- The numbers of `LAYOUT`; larger layouts dominate. -/
def code : Layout → ℕ
  | .scalarConst => 1
  | .scalarTemp => 2
  | .scalar => 4
  | .contractable => 8
  | .contiguous => 16
  | .consecutive => 32
  | .strided => 64

@[simp] theorem code_scalarConst : code .scalarConst = 1 := rfl
@[simp] theorem code_scalarTemp : code .scalarTemp = 2 := rfl
@[simp] theorem code_scalar : code .scalar = 4 := rfl
@[simp] theorem code_contractable : code .contractable = 8 := rfl
@[simp] theorem code_contiguous : code .contiguous = 16 := rfl
@[simp] theorem code_consecutive : code .consecutive = 32 := rfl
@[simp] theorem code_strided : code .strided = 64 := rfl

/-- `layout & COLLAPSIBLE`. -/
def collapsible : Layout → Bool
  | .scalar | .scalarConst | .contractable | .contiguous | .consecutive => true
  | .scalarTemp | .strided => false

/-- What a kernel reads of an `operand_t`. -/
structure Opd where
  layout : Layout
  start : ℤ
  dims : List Dim
  deriving DecidableEq, Repr

def Opd.shape (o : Opd) : List ℕ := o.dims.map Dim.shape

/-- `strides[d]`. -/
def Opd.strideAt (o : Opd) (d : ℕ) : ℤ := (o.dims[d]?.map Dim.stride).getD 0

/-- `SymbolTable::turn_contractable`. -/
def Opd.turnContractable (o : Opd) : Opd :=
  if o.layout = .scalar then { o with layout := .scalarTemp } else { o with layout := .contractable }

/-- A block: the symbol table it was composed with, the operands that are contracted afterwards, the
constants as integers, and its codes. -/
structure Block where
  symbols : ℕ → Opd
  contracted : ℕ → Bool
  constant : ℕ → ℕ
  tacs : List Tac

/-- The symbol table when the kernel is generated. A constant has no base, so it is never contracted. -/
def Block.globals (b : Block) (k : ℕ) : Opd :=
  if b.contracted k ∧ (b.symbols k).layout ≠ .scalarConst then (b.symbols k).turnContractable else b.symbols k

/-- `tac_noperands`. -/
def noperands (tac : Tac) : ℕ :=
  match tac.op with
  | .map => 2
  | .zip | .scan | .reduceComplete | .reducePartial | .index | .extension => 3
  | .generate =>
    match tac.oper with
    | .random => 3
    | .range => 1
    | _ => 0
  | .system =>
    match tac.oper with
    | .discard | .free | .sync => 1
    | _ => 0
  | .unset | .noop => 0

/-- The operands of a code, in the order in which they are looked at. -/
def operandsOf (tac : Tac) : List ℕ := [tac.in2, tac.in1, tac.out].drop (3 - noperands tac)

/-- `tac.op & ARRAY_OPS`. -/
def isArrayOp : Operation → Bool
  | .map | .zip | .generate | .reduceComplete | .reducePartial | .scan | .index => true
  | _ => false

/-- `tac.op & EWISE`. -/
def isEwise : Operation → Bool
  | .map | .zip | .generate => true
  | _ => false

/-- `tac.op & REDUCTION`. -/
def isReduction : Operation → Bool
  | .reduceComplete | .reducePartial => true
  | _ => false

/-- `tac.op & ACCUMULATION`. -/
def isAccumulation : Operation → Bool
  | .reduceComplete | .reducePartial | .scan => true
  | _ => false

/-! ## The iteration space -/

/-- `iterspace_t`. -/
structure Iterspace where
  layout : Layout
  shape : List ℕ
  deriving DecidableEq, Repr

def Iterspace.nelem (it : Iterspace) : ℕ := it.shape.prod

/-- An operand that dominates gives its layout, and its shape unless it is a temporary scalar. -/
def dominate (globals : ℕ → Opd) (it : Iterspace) (k : ℕ) : Iterspace :=
  if code it.layout < code (globals k).layout then
    if code .scalarTemp < code (globals k).layout then ⟨(globals k).layout, (globals k).shape⟩
    else { it with layout := (globals k).layout }
  else it

/-- One code of `update_iterspace`. -/
def updateTac (globals : ℕ → Opd) (it : Iterspace) (tac : Tac) : Iterspace :=
  if isArrayOp tac.op = false then it
  else if isReduction tac.op then
    let it := if code it.layout ≤ code (globals tac.in1).layout then
      ⟨(globals tac.in1).layout, (globals tac.in1).shape⟩ else it
    if code it.layout < code (globals tac.out).layout then { it with layout := (globals tac.out).layout } else it
  else (operandsOf tac).foldl (dominate globals) it

/-- `update_iterspace`; the space is never reset. -/
def updateIterspace (globals : ℕ → Opd) (tacs : List Tac) (it : Iterspace) : Iterspace :=
  tacs.foldl (updateTac globals) it

/-- The space of a kernel: after composing the block, and again after contraction. -/
def Block.iterspace (b : Block) : Iterspace :=
  updateIterspace b.globals b.tacs (updateIterspace b.symbols b.tacs ⟨.scalarTemp, []⟩)

/-! ## Choosing a walker -/

/-- The templates. -/
inductive Template
  | scalar | collapsed | inner2d | innerNd | axisNd | scan1d | scanNd
  deriving DecidableEq, Repr

def Block.has (b : Block) (op : Operation) : Bool := b.tacs.any fun tac => tac.op = op

/-- The accumulation that the kernel takes its axis from: the last one. -/
def Block.accumulation (b : Block) : Option Tac := b.tacs.reverse.find? fun tac => isAccumulation tac.op

/-- The axis of that accumulation. -/
def Block.axis (b : Block) : ℕ := b.accumulation.elim 0 fun tac => b.constant tac.in2

/-- `generate_source`, as far as it chooses the template; `none` is an exception. -/
def Block.template (b : Block) : Option Template :=
  let it := b.iterspace
  let rank := it.shape.length
  let innermost := b.accumulation.isSome && b.axis + 1 == rank
  if !(b.tacs.any fun tac => isArrayOp tac.op) || b.has .extension then none
  else if it.layout = .scalar then
    if b.tacs.any fun tac => isAccumulation tac.op then none else some .scalar
  else if collapsible it.layout && !b.has .scan && !(decide (1 < rank) && b.has .reducePartial) then some .collapsed
  else if (b.tacs.any (fun tac => isEwise tac.op || isReduction tac.op)) && !(b.has .reducePartial && !innermost) then
    if rank = 2 then some .inner2d else some .innerNd
  else if b.tacs.any fun tac => isEwise tac.op || tac.op = .reducePartial then some .axisNd
  else if b.has .scan then
    if rank = 1 then some .scan1d else some .scanNd
  else none

/-! ## Stepping -/

/-- `inner_opds_`, as `operations` fills it. -/
def innerOpds (tac : Tac) : List ℕ :=
  match tac.op with
  | .map | .zip | .generate => operandsOf tac
  | .reduceComplete | .reducePartial => [tac.in1]
  | .scan => [tac.in1, tac.out]
  | .index =>
    match tac.oper with
    | .gather => [tac.out, tac.in2]
    | .scatter => [tac.in1, tac.in2]
    | _ => []
  | _ => []

/-- `outer_opds_`. -/
def outerOpds (tac : Tac) : List ℕ :=
  match tac.op with
  | .map | .zip | .generate => operandsOf tac
  | .reduceComplete | .reducePartial => [tac.in1, tac.out]
  | .scan => [tac.in1, tac.out]
  | _ => []

def Block.isInner (b : Block) (k : ℕ) : Bool := b.tacs.any fun tac => (innerOpds tac).contains k

def Block.isOuter (b : Block) (k : ℕ) : Bool := b.tacs.any fun tac => (outerOpds tac).contains k

/-- The operands with a pointer that moves. -/
def Opd.moves (o : Opd) : Bool :=
  match o.layout with
  | .contiguous | .consecutive | .strided => true
  | _ => false

/-- `assign_collapsed_offset`, in a collapsed walker: the space is collapsible. -/
def collapsedOffset (o : Opd) (innerDim workOffset : ℕ) : ℤ :=
  match o.layout with
  | .contiguous => workOffset
  | .consecutive => workOffset * o.strideAt innerDim
  | .strided => workOffset * o.strideAt 0
  | _ => 0

/-- `step_fwd_inner`. -/
def innerStep (o : Opd) (innerDim : ℕ) : ℤ :=
  match o.layout with
  | .strided | .consecutive => o.strideAt innerDim
  | .contiguous => 1
  | _ => 0

/-- `step_fwd_outer_2D`, with `declare_stride_outer_2D`. -/
def outerStep2d (o : Opd) (chunksize : ℕ) : ℤ :=
  if o.dims.length = 2 then
    match o.layout with
    | .strided | .consecutive => o.strideAt 0 - o.strideAt 1 * chunksize
    | _ => 0
  else if o.moves then o.strideAt 0 else 0

/-- A visit: the index of the space it is for, the variable `eidx`, and the operand pointers. -/
structure Visit where
  index : List ℕ
  eidx : ℕ
  walker : ℕ → ℤ

section Walkers
variable (b : Block) (mthreads : ℕ)

def nworkers (n mthreads : ℕ) : ℕ := if mthreads < n then mthreads else 1

/-- The pointers as they are declared. -/
def Block.first (k : ℕ) : ℤ := (b.globals k).start

def Block.stepInner (innerDim : ℕ) (p : ℕ → ℤ) (k : ℕ) : ℤ :=
  p k + if b.isInner k then innerStep (b.globals k) innerDim else 0

/-- A worker of `walker.collapsed`. -/
def Block.collapsedWorker (workOffset work : ℕ) : List Visit :=
  let shape := b.iterspace.shape
  let innerDim := shape.length - 1
  let p := fun k => b.first k + collapsedOffset (b.globals k) innerDim workOffset
  (List.range work).map fun j => ⟨coords shape (workOffset + j), workOffset + j, (b.stepInner innerDim)^[j] p⟩

/-- One chunk of an inner walker, from pointers at its first element; the pointers after it are those at
which a partial reduction is written. -/
def Block.chunk (eidx chunksize innerDim : ℕ) (p : ℕ → ℤ) : List Visit :=
  (List.range chunksize).map fun iidx =>
    ⟨coords b.iterspace.shape (eidx + iidx), eidx, (b.stepInner innerDim)^[iidx] p⟩

/-- The pointers of `walker.inner.2d` at the beginning of its `c`-th chunk. -/
def Block.pointers2d (workOffset c : ℕ) : ℕ → ℤ :=
  let chunksize := b.iterspace.shape.getLastD 1
  let p := fun k => b.first k + if (b.globals k).moves then workOffset * (b.globals k).strideAt 0 else 0
  (fun p k => ((b.stepInner 1)^[chunksize] p) k + if b.isOuter k then outerStep2d (b.globals k) chunksize else 0)^[c] p

/-- The pointers of `walker.inner.nd` at the beginning of a chunk. -/
def Block.pointersNd (eidx : ℕ) (k : ℕ) : ℤ :=
  b.first k + if b.isOuter k && (b.globals k).moves then
    ((List.range (b.iterspace.shape.length - 1)).map fun dim =>
      ((coords b.iterspace.shape eidx).getD dim 0 : ℤ) * (b.globals k).strideAt dim).sum else 0

/-- The pointers of `walker.axis.nd` before the loop over the axis: an operand that is only outer has no
axis dimension. -/
def Block.pointersAxis (eidx : ℕ) (k : ℕ) : ℤ :=
  let others := (List.range b.iterspace.shape.length).eraseIdx b.axis
  let coord := coords (b.iterspace.shape.eraseIdx b.axis) eidx
  b.first k + if (b.globals k).moves then
    if b.isInner k then ((coord.zip others).map fun p => (p.1 : ℤ) * (b.globals k).strideAt p.2).sum
    else if b.isOuter k then (coord.zipIdx.map fun p => (p.1 : ℤ) * (b.globals k).strideAt p.2).sum
    else 0
  else 0

def Block.stepAxis (p : ℕ → ℤ) (k : ℕ) : ℤ :=
  p k + if b.isInner k && (b.globals k).moves then (b.globals k).strideAt b.axis else 0

/-- The visits of the workers, one list for each. -/
def Block.visits (t : Template) : List (List Visit) :=
  let shape := b.iterspace.shape
  let chunksize := shape.getLastD 1
  let share := fun n tid => Walk.share n (nworkers n mthreads) tid
  match t with
  | .scalar => [[⟨coords shape 0, 0, b.first⟩]]
  | .collapsed =>
    (List.range (nworkers shape.prod mthreads)).map fun tid =>
      b.collapsedWorker (share shape.prod tid).1 (share shape.prod tid).2
  | .inner2d =>
    (List.range (nworkers (shape.prod / chunksize) mthreads)).map fun tid =>
      let (offset, work) := share (shape.prod / chunksize) tid
      (List.range work).flatMap fun c => b.chunk ((offset + c) * chunksize) chunksize 1 (b.pointers2d offset c)
  | .innerNd =>
    (List.range (nworkers (shape.prod / chunksize) mthreads)).map fun tid =>
      let (offset, work) := share (shape.prod / chunksize) tid
      (List.range work).flatMap fun c =>
        b.chunk ((offset + c) * chunksize) chunksize (shape.length - 1) (b.pointersNd ((offset + c) * chunksize))
  | .axisNd =>
    let other := shape.eraseIdx b.axis
    let chunksize := other.getLastD 1
    (List.range (nworkers (other.prod / chunksize) mthreads)).map fun tid =>
      let (offset, work) := share (other.prod / chunksize) tid
      (List.range (work * chunksize)).flatMap fun e =>
        let eidx := offset * chunksize + e
        (List.range (shape.getD b.axis 1)).map fun aidx =>
          ⟨(coords other eidx).insertIdx b.axis aidx, eidx, b.stepAxis^[aidx] (b.pointersAxis eidx)⟩
  | .scan1d | .scanNd => []

/-- The places at which a partial reduction is written: after a chunk of an inner walker, and after a sweep
of the axis. Their index is the one without the axis. -/
def Block.writebacks (t : Template) : List (List Visit) :=
  let shape := b.iterspace.shape
  let chunksize := shape.getLastD 1
  let share := fun n tid => Walk.share n (nworkers n mthreads) tid
  match t with
  | .inner2d =>
    (List.range (nworkers (shape.prod / chunksize) mthreads)).map fun tid =>
      let (offset, work) := share (shape.prod / chunksize) tid
      (List.range work).map fun c =>
        ⟨coords shape.dropLast (offset + c), (offset + c) * chunksize,
          (b.stepInner 1)^[chunksize] (b.pointers2d offset c)⟩
  | .innerNd =>
    (List.range (nworkers (shape.prod / chunksize) mthreads)).map fun tid =>
      let (offset, work) := share (shape.prod / chunksize) tid
      (List.range work).map fun c =>
        ⟨coords shape.dropLast (offset + c), (offset + c) * chunksize,
          (b.stepInner (shape.length - 1))^[chunksize] (b.pointersNd ((offset + c) * chunksize))⟩
  | .axisNd =>
    let other := shape.eraseIdx b.axis
    let chunksize := other.getLastD 1
    (List.range (nworkers (other.prod / chunksize) mthreads)).map fun tid =>
      let (offset, work) := share (other.prod / chunksize) tid
      (List.range (work * chunksize)).map fun e =>
        let eidx := offset * chunksize + e
        ⟨coords other eidx, eidx, b.stepAxis^[shape.getD b.axis 1] (b.pointersAxis eidx)⟩
  | .scalar | .collapsed | .scan1d | .scanNd => []

end Walkers

end Bohrium.Cpu
