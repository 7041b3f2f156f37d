import Bohrium.Core.Kernel
import Bohrium.Dag.Boost
import Mathlib.Data.List.Sort

/-! # The dependency and weight graphs

`GraphDW` (`bh_dag.h`, `core/bh_dag.cpp`): a directed dependency graph whose vertices carry kernels,
and an undirected weight graph on the same vertices. Edges are kept in the order they were added,
which is the order the library enumerates them in; neighbours come in the order of their numbers.
Neither graph has parallel edges. Asserts are not modelled. -/
namespace Bohrium
open Edges
set_option autoImplicit false

/-- An edge of the weight graph. -/
structure EdgeW where
  source : ℕ
  target : ℕ
  value : ℤ
  deriving DecidableEq, Repr

/-- The edge joins `u` and `v`, in either direction. -/
def EdgeW.joins (e : EdgeW) (u v : ℕ) : Bool :=
  (e.source == u && e.target == v) || (e.source == v && e.target == u)

/-- The other end of an edge at `u`. -/
def EdgeW.opposite (e : EdgeW) (u : ℕ) : ℕ := if e.source = u then e.target else e.source

structure GraphDW where
  kernels : List BhIrKernel := []
  edgesD : List (ℕ × ℕ) := []
  numW : ℕ := 0
  edgesW : List EdgeW := []
  base2vertices : List (BhBase × List ℕ) := []
  deriving DecidableEq, Repr

/-- `path_exist`. With `onlyLongPath` the last edge must not start at `a` itself. -/
def pathExist (a b : ℕ) (E : List (ℕ × ℕ)) (onlyLongPath : Bool) : Bool :=
  E.any fun e => reach E a e.1 && e.2 == b && (!onlyLongPath || e.1 != a)

/-- `add_edge` on the weight graph; an edge that is there keeps its weight. -/
def addEdgeW (u v : ℕ) (value : ℤ) (E : List EdgeW) : List EdgeW :=
  if E.any (·.joins u v) then E else E ++ [⟨u, v, value⟩]

def findEdgeW (u v : ℕ) (E : List EdgeW) : Option EdgeW := E.find? (·.joins u v)

/-- Two vertices are joined in the weight graph. -/
def Joined (E : List EdgeW) (u v : ℕ) : Prop := ∃ e ∈ E, e.joins u v = true

instance instLawfulBEqEdge : LawfulBEq (ℕ × ℕ) := inferInstance

namespace GraphDW

def numVertices (g : GraphDW) : ℕ := g.kernels.length

/-- The kernel bundled with a vertex. -/
def kernel (g : GraphDW) (v : ℕ) : BhIrKernel := g.kernels.getD v {}

def outNeighbours (g : GraphDW) (v : ℕ) : List ℕ :=
  (List.range g.numVertices).filter fun w => (v, w) ∈ g.edgesD

def inNeighbours (g : GraphDW) (v : ℕ) : List ℕ :=
  (List.range g.numVertices).filter fun w => (w, v) ∈ g.edgesD

def neighboursW (g : GraphDW) (v : ℕ) : List ℕ :=
  (List.range g.numVertices).filter fun w => g.edgesW.any (·.joins v w)

/-! ## Adding vertices -/

/-- The base arrays a kernel accesses, in the order of their addresses. -/
def basesOf (l : List BhInstruction) (k : BhIrKernel) : List BhBase :=
  ((k.instrIndexes.flatMap fun idx => (instrAt l idx).operands.filterMap BhView.base).dedup).insertionSort
    fun a b => a.addr ≤ b.addr

section
variable (model : FuseModel) (l : List BhInstruction)

/-- The body of the loop over the vertices that access a base array. -/
def connect (d : ℕ) (kernel : BhIrKernel) (g : GraphDW) (v : ℕ) : GraphDW :=
  if d == v || pathExist v d g.edgesD false then g
  else
    let dep := kernel.dependency l (g.kernel v)
    let cost := kernel.mergeCostSavings model l (g.kernel v)
    { g with
      edgesD := if dep ≠ 0 then setInsert (v, d) g.edgesD else g.edgesD
      edgesW := if 0 < cost ∨ (cost = 0 ∧ dep ≠ 0) then addEdgeW v d cost g.edgesW else g.edgesW }

/-- The body of the loop over the base arrays. -/
def connectBase (d : ℕ) (kernel : BhIrKernel) (g : GraphDW) (base : BhBase) : GraphDW :=
  match g.base2vertices.lookup base with
  | none => { g with base2vertices := g.base2vertices ++ [(base, [d])] }
  | some vs =>
    let g' := vs.foldl (connect model l d kernel) g
    { g' with base2vertices := g'.base2vertices.map fun p =>
        if p.1 = base then (p.1, setInsert d vs) else p }

/-- The new vertex alone. -/
def appendVertex (g : GraphDW) (kernel : BhIrKernel) : GraphDW :=
  { g with kernels := g.kernels ++ [kernel], numW := g.numW + 1 }

def addVertex (g : GraphDW) (kernel : BhIrKernel) : GraphDW :=
  (basesOf l kernel).foldl (connectBase model l g.numVertices kernel) (g.appendVertex kernel)

end

/-! ## Removing and merging -/

def removeEdges (g : GraphDW) (v1 v2 : ℕ) : GraphDW :=
  { g with
    edgesD := g.edgesD.filter fun e => e ≠ (v1, v2) ∧ e ≠ (v2, v1)
    edgesW := g.edgesW.filter fun e => !e.joins v1 v2 }

def clearVertex (g : GraphDW) (v : ℕ) : GraphDW :=
  { g with
    kernels := g.kernels.set v (g.kernel v).clear
    edgesD := g.edgesD.filter fun e => e.1 ≠ v ∧ e.2 ≠ v
    edgesW := g.edgesW.filter fun e => e.source ≠ v ∧ e.target ≠ v }

/-- The vertices that still have instructions. -/
def live (g : GraphDW) : List ℕ :=
  (List.range g.numVertices).filter fun v => (g.kernel v).instrIndexes ≠ []

/-- `remove_cleared_vertices`; the vertices behind a removed one move up. -/
def removeClearedVertices (g : GraphDW) : GraphDW :=
  { g with
    kernels := g.live.map g.kernel
    edgesD := g.edgesD.map fun e => (g.live.idxOf e.1, g.live.idxOf e.2)
    numW := g.numW - (g.numVertices - g.live.length)
    edgesW := g.edgesW.map fun e => ⟨g.live.idxOf e.source, g.live.idxOf e.target, e.value⟩ }

section
variable (model : FuseModel) (l : List BhInstruction)

/-- The merged instruction lists; `a` survives. -/
def mergeKernels (g : GraphDW) (a b : ℕ) (aBeforeB : Bool) : GraphDW :=
  if aBeforeB then
    let k := (g.kernel b).instrIndexes.foldl (BhIrKernel.addInstr l) (g.kernel a)
    { g with kernels := g.kernels.set a k }
  else
    let k := (g.kernel a).instrIndexes.foldl (BhIrKernel.addInstr l) (g.kernel b)
    { g with kernels := (g.kernels.set b k).set a k }

/-- The edges of `b` added to `a`. -/
def moveEdges (g : GraphDW) (a b : ℕ) : GraphDW :=
  let outs := (g.outNeighbours b).filter (· ≠ a)
  let ins := (g.inNeighbours b).filter (· ≠ a)
  let ws := (g.neighboursW b).filter (· ≠ a)
  { g with
    edgesD := ins.foldl (fun E v => setInsert (v, a) E) (outs.foldl (fun E v => setInsert (a, v) E) g.edgesD)
    edgesW := (outs ++ ins ++ ws).foldl (fun E v => addEdgeW a v 0 E) g.edgesW }

/-- The weight of an edge at `a` brought up to date; an edge to a kernel that is no longer fusible
with the one of `a` goes. -/
def reweighEdge (g : GraphDW) (a : ℕ) (e : EdgeW) : Option EdgeW :=
  if e.source ≠ a ∧ e.target ≠ a then some e
  else
    let cost := (g.kernel a).mergeCostSavings model l (g.kernel (e.opposite a))
    if 0 ≤ cost then some { e with value := cost } else none

def reweigh (g : GraphDW) (a : ℕ) : GraphDW :=
  { g with edgesW := g.edgesW.filterMap (g.reweighEdge model l a) }

def mergeVertices (g : GraphDW) (a b : ℕ) (aBeforeB : Bool) : GraphDW :=
  (((g.mergeKernels l a b aBeforeB).moveEdges a b).clearVertex b).reweigh model l a

end

def transitiveReduction (g : GraphDW) : GraphDW :=
  let edgesD := g.edgesD.filter fun e => !pathExist e.1 e.2 g.edgesD true
  { g with
    edgesD := edgesD
    edgesW := g.edgesW.filter fun e =>
      decide ((e.source, e.target) ∈ edgesD) || decide ((e.target, e.source) ∈ edgesD) ||
        !(pathExist e.source e.target edgesD true || pathExist e.target e.source edgesD true) }

end GraphDW

/-! ## Building the graph and reading it out -/

section
variable (l : List BhInstruction)

/-- The loop that `from_bhir` and the topological fuser share: a new kernel takes in the following
instructions as long as `accept` holds. -/
def kernelRunsLoop (accept : BhIrKernel → ℕ → Bool) (kernel : BhIrKernel) : List ℕ → List BhIrKernel
  | [] => [kernel]
  | idx :: rest =>
    if accept kernel idx then kernelRunsLoop accept (kernel.addInstr l idx) rest
    else kernel :: kernelRunsLoop accept (BhIrKernel.addInstr l {} idx) rest

def kernelRuns (accept : BhIrKernel → ℕ → Bool) : List BhIrKernel :=
  match List.range l.length with
  | [] => []
  | idx :: rest => kernelRunsLoop l accept (BhIrKernel.addInstr l {} idx) rest

def baseInKernel (kernel : BhIrKernel) (base : Option BhBase) : Bool :=
  kernel.instrIndexes.any fun idx =>
    (instrAt l idx).operands.any fun v => !bhIsConstant v && v.base == base

/-- The gentle fusion of `from_bhir`: a system instruction on one array of the kernel. No fuse
model is asked. -/
def gentleAccept (kernel : BhIrKernel) (idx : ℕ) : Bool :=
  (instrAt l idx).isSystem && bhOperands (instrAt l idx).opcode == 1 &&
    baseInKernel l kernel (instrAt l idx).operand0.base

def fromBhir (model : FuseModel) : GraphDW :=
  (kernelRuns l (gentleAccept l)).foldl (GraphDW.addVertex model l) {}

/-- `fill_kernel_list`: the kernels in topological order, without those that only hold `BH_NONE`.
`none` is the exception of `topological_sort`. -/
def fillKernelList (boost : Boost) (g : GraphDW) : Option (List BhIrKernel) :=
  (boost.topologicalSort g.numVertices g.edgesD).map fun order =>
    (order.reverse.map g.kernel).filter fun k => !k.isNoop l

end
end Bohrium
