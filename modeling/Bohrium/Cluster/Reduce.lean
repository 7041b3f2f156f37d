import Bohrium.Cluster.Batch
import Bohrium.Filter.Bcexp

/-! # Reductions on the cluster

`vem/cluster/ufunc_reduce.cpp`. The output is given the reduced dimension again, with a stride of zero,
and both operands are cut into chunks. The process that holds an input chunk reduces it into a
temporary array, and the process that holds the output takes that into its part of the output: first
from the chunks at the beginning of the axis, which set the output, then from all others.

Temporary arrays are asked for under a box's corner as the chunks are; an array of `ufunc_reduce` has
the position after the two operands, and the array that collects a vector's results has no corner. -/
namespace Bohrium.Cluster
open Strided
set_option autoImplicit false

/-- The operation that `execute_instr` passes to `ufunc_reduce`. -/
def reduceOperation : BhOpcode → Option BhOpcode
  | .addReduce => some .add
  | .multiplyReduce => some .multiply
  | .minimumReduce => some .minimum
  | .maximumReduce => some .maximum
  | .logicalAndReduce => some .logicalAnd
  | .bitwiseAndReduce => some .bitwiseAnd
  | .logicalOrReduce => some .logicalOr
  | .bitwiseOrReduce => some .bitwiseOr
  | _ => none

/-- The instruction of `reduce_chunk`. -/
def reduceChunk (opcode : BhOpcode) (axis : ℕ) (out input : BhView) : BhInstruction :=
  ⟨opcode, out, input, noView, .int .int64 axis⟩

/-- The release of a chunk's array if it is temporary. -/
def releaseChunk (c : AryChunk) : List Task := if c.temporary then c.ary.base.toList.flatMap release else []

/-! ## `ufunc_reduce` -/

/-- The output view with a zero stride in the `axis` dimension, and the input's shape. -/
def bcastOutput (axis : ℕ) (out input : BhView) : BhView :=
  { out with dims := List.zipWith Dim.mk input.shape ((out.dims.map Dim.stride).insertIdx axis 0) }

/-- The chunk's view without the broadcasted dimension. -/
def dropAxis (axis : ℕ) (v : BhView) : BhView := { v with dims := v.dims.eraseIdx axis }

/-- The temporary array with the shape of the output chunk. -/
def faceTmp (st : Stores) (coord : List ℕ) (out : BhView) : Option BhView :=
  out.base.map fun b => ⟨some ⟨st.ofChunk coord 2, b.type, bhNelements out⟩, 0, contiguous out.dims⟩

/-- The chunks of the first row set the output. -/
def initInst (out tmp : BhView) : BhInstruction := ⟨.identity, out, tmp, noView, .int .int64 0⟩

/-- The other chunks are combined with what the output holds. -/
def combineInst (opcode : BhOpcode) (out tmp : BhView) : BhInstruction := ⟨opcode, out, out, tmp, .int .int64 0⟩

/-- What a process schedules for a pair of chunks; `finish` brings the result into the output. -/
def faceTasks (st : Stores) (myrank : ℕ) (i : BhInstruction) (finish : BhView → BhView → BhInstruction)
    (chunks : List (Option AryChunk)) : List Task :=
  match chunks with
  | [some outChunk, some inChunk] =>
    let out := dropAxis i.axis outChunk.ary
    match faceTmp st outChunk.coord out with
    | none => []
    | some tmp =>
      (if myrank = inChunk.rank then
        .inst (reduceChunk i.opcode i.axis tmp inChunk.ary) :: releaseChunk inChunk else []) ++
      commArrayData st myrank (outChunk.coord, 2) ⟨inChunk.rank, tmp, outChunk.coord, false⟩ outChunk.rank ++
      (if myrank = outChunk.rank then [.inst (finish out tmp)] else []) ++
      tmp.base.toList.flatMap release ++ releaseChunk { outChunk with ary := out }
  | _ => []

/-- The chunks compute the first row. -/
def isFirstRow (axis : ℕ) (chunks : List (Option AryChunk)) : Bool :=
  match chunks with
  | some outChunk :: _ => outChunk.coord.getD axis 0 == 0
  | _ => false

/-- The two passes over the chunks. -/
def reducePasses (st : Stores) (myrank : ℕ) (i : BhInstruction) (opcode : BhOpcode)
    (groups : List (List (Option AryChunk))) : List Task :=
  (groups.filter (isFirstRow i.axis)).flatMap (faceTasks st myrank i initInst) ++
    (groups.filter fun group => !isFirstRow i.axis group).flatMap (faceTasks st myrank i (combineInst opcode))

/-! ## `reduce_vector` -/

/-- The output view with the input's length and a zero stride. -/
def bcastOut (out input : BhView) : BhView := { out with dims := [⟨input.shape.headD 0, 0⟩] }

/-- One element of a temporary array. -/
def scalarAt (b : BhBase) (start : ℤ) : BhView := ⟨some b, start, [⟨1, 1⟩]⟩

/-- The array that the master reduces in the end. -/
def masterTmp (st : Stores) (worldsize : ℕ) (type : BhType) : BhBase := ⟨st.ofChunk [] 0, type, worldsize⟩

/-- What a process schedules for a chunk of the vector, after `count` results. -/
def vectorTasks (st : Stores) (myrank : ℕ) (i : BhInstruction) (mtmp : BhBase) (master count : ℕ)
    (input : AryChunk) : List Task :=
  (if myrank = input.rank then
    (if myrank = master then [.inst (reduceChunk i.opcode i.axis (scalarAt mtmp count) input.ary)]
    else
      let ltmp : BhBase := ⟨st.ofChunk input.coord 2, (input.ary.base.map BhBase.type).getD mtmp.type, 1⟩
      [.inst (reduceChunk i.opcode i.axis (scalarAt ltmp 0) input.ary),
        .send (input.coord, 2) master (scalarAt ltmp 0)] ++ release ltmp) ++ releaseChunk input
  else []) ++
  if myrank = master ∧ myrank ≠ input.rank then [.recv (input.coord, 2) input.rank (scalarAt mtmp count)]
  else []

/-- The loop over the chunks, with `mtmp_count`: only the master counts. -/
def vectorLoop (st : Stores) (myrank : ℕ) (i : BhInstruction) (mtmp : BhBase) (master : ℕ) :
    ℕ → List (List (Option AryChunk)) → List Task × ℕ
  | count, [] => ([], count)
  | count, group :: groups =>
    match group with
    | [_, some input] =>
      let (rest, total) := vectorLoop st myrank i mtmp master (if myrank = master then count + 1 else count) groups
      (vectorTasks st myrank i mtmp master count input ++ rest, total)
    | _ => vectorLoop st myrank i mtmp master count groups

/-- The final output: the first output chunk, with length one. -/
def scalarOut (v : BhView) : BhView := { v with dims := v.dims.modifyHead fun d => { d with shape := 1 } }

/-- The chunk of the output and the master's array. -/
def vectorMaster (st : Stores) (worldsize : ℕ) (i : BhInstruction) (groups : List (List (Option AryChunk))) :
    Option (AryChunk × BhBase) :=
  match groups, i.operand1.base with
  | (some out :: _) :: _, some b => some (out, masterTmp st worldsize b.type)
  | _, _ => none

/-- The tasks of `reduce_vector`, and `mtmp_count` in the end. -/
def vectorPasses (st : Stores) (g : Pgrid) (i : BhInstruction) (groups : List (List (Option AryChunk))) :
    List Task × ℕ :=
  match vectorMaster st g.worldsize i groups with
  | none => ([], 0)
  | some (out, mtmp) =>
    let (tasks, count) := vectorLoop st g.myrank i mtmp out.rank 0 groups
    (tasks ++
      if g.myrank = out.rank ∧ 0 < count then
        .inst (reduceChunk i.opcode i.axis (scalarOut out.ary) ⟨some mtmp, 0, [⟨count, 1⟩]⟩) :: release mtmp
      else [], count)

/-- The operands that are cut into chunks. -/
def reduceOperands (i : BhInstruction) : List BhView :=
  [if i.operand1.ndim = 1 then bcastOut i.operand0 i.operand1 else bcastOutput i.axis i.operand0 i.operand1,
    i.operand1]

/-- `ufunc_reduce`: the tasks of process `g.myrank`. -/
def ufuncReduce (st : Stores) (g : Pgrid) (i : BhInstruction) (opcode : BhOpcode) : Option (List Task) :=
  (mappingChunks st g (reduceOperands i)).map fun groups =>
    (if i.operand1.ndim = 1 then (vectorPasses st g i groups).1
      else reducePasses st g.myrank i opcode groups).foldl batchSchedule []

end Bohrium.Cluster
