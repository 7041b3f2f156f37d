import Bohrium.Cluster.Mapping
import Bohrium.Library.Network
import Bohrium.Semantics.Whole

/-! # Tasks of the cluster engine

`execute_regular` (`vem/cluster/exec.cpp`), `comm_array_data` (`comm.cpp`) and the batch of tasks
(`batch.cpp`). A process schedules its part of every chunk and then flushes the tasks in order; the
processes together are a network with one FIFO channel for each ordered pair. -/
namespace Bohrium.Cluster
open Strided
set_option autoImplicit false

/-- Which chunk a message is about: the lowest corner of its box, and the operand. The source's
messages do not carry it; it is here to say which send a receive is matched with. -/
abbrev ChunkId := List ℕ × ℕ

/-- `task`. -/
inductive Task
  | inst (i : BhInstruction)
  | send (id : ChunkId) (rank : ℕ) (view : BhView)
  | recv (id : ChunkId) (rank : ℕ) (view : BhView)
  deriving DecidableEq, Repr

/-! ## Scheduling -/

/-- A view that is flagged as a constant, for operands that are not assigned. -/
def noView : BhView := ⟨none, 0, []⟩

/-- `batch_schedule_inst_on_base`, on the view of the complete base. -/
def onBase (opcode : BhOpcode) (b : BhBase) : Task :=
  .inst ⟨opcode, ⟨some b, 0, [⟨b.nelem, 1⟩]⟩, noView, noView, .int .int64 0⟩

/-- `BH_FREE` and `BH_DISCARD` of a temporary array. -/
def release (b : BhBase) : List Task := [onBase .free b, onBase .discard b]

def Task.isDiscard : Task → Bool
  | .inst i => i.opcode == .discard
  | _ => false

/-- `batch_schedule`. The bases in `discard_store` are those whose `BH_DISCARD` is scheduled, and it
is not scheduled again. -/
def batchSchedule (tasks : List Task) (t : Task) : List Task :=
  if t.isDiscard && t ∈ tasks then tasks else tasks ++ [t]

/-- The dimensions of the send buffer: packed, but only a positive stride is changed. -/
def sendDims : List Dim → List Dim
  | [] => []
  | d :: ds =>
    ⟨d.shape, if 0 < d.stride then ((ds.filter fun e => 0 < e.stride).map Dim.shape).prod else d.stride⟩ ::
      sendDims ds

/-- `comm_array_data`: the tasks of process `myrank` that bring a chunk to `receiver`. -/
def commArrayData (st : Stores) (myrank : ℕ) (id : ChunkId) (chunk : AryChunk) (receiver : ℕ) : List Task :=
  if chunk.rank = receiver then []
  else if myrank = receiver then [.recv id chunk.rank chunk.ary]
  else if myrank = chunk.rank then
    match chunk.ary.base with
    | none => []
    | some b =>
      let buffer : BhBase := ⟨st.ofBuffer id.1 id.2, b.type, bhNelementsNbcast chunk.ary⟩
      let tmpView : BhView := ⟨some buffer, 0, sendDims chunk.ary.dims⟩
      [.inst ⟨.identity, tmpView, chunk.ary, noView, .int .int64 0⟩, .send id receiver tmpView] ++
        release buffer
  else []

/-- The operand at a position: the chunk's view, or the constant. -/
def chunkView (chunks : List (Option AryChunk)) (k : ℕ) (v : BhView) : BhView :=
  match chunks[k]? with
  | some (some c) => c.ary
  | _ => v

/-- The local instruction that is based on the chunks. -/
def localInst (i : BhInstruction) (chunks : List (Option AryChunk)) : BhInstruction :=
  { i with
    operand0 := chunkView chunks 0 i.operand0
    operand1 := chunkView chunks 1 i.operand1
    operand2 := chunkView chunks 2 i.operand2 }

/-- The chunk offset that `BH_RANGE` adds on every process but the first. -/
def rangeOffset (i : BhInstruction) (chunks : List (Option AryChunk)) (myrank coord0 : ℕ) : List Task :=
  if i.opcode = .range ∧ 0 < myrank then
    let out := chunkView chunks 0 i.operand0
    [.inst ⟨.add, out, out, { out with base := none }, .int .uint64 coord0⟩]
  else []

/-- The temporary arrays of a group of chunks. -/
def temporaries (chunks : List (Option AryChunk)) : List BhBase :=
  chunks.flatMap fun
    | some c => if c.temporary then c.ary.base.toList else []
    | none => []

/-- What `execute_regular` schedules for one group of chunks: the data is brought to the process that
owns the output chunk, and that process computes. -/
def groupTasks (st : Stores) (myrank : ℕ) (i : BhInstruction) (chunks : List (Option AryChunk)) : List Task :=
  match chunks with
  | some out :: _ =>
    let comm := chunks.zipIdx.flatMap fun p =>
      match p.1 with
      | none => []
      | some c => commArrayData st myrank (c.coord, p.2) c out.rank
    if myrank = out.rank then
      comm ++ .inst (localInst i chunks) :: rangeOffset i chunks myrank (out.coord.headD 0) ++
        (temporaries chunks).flatMap release
    else comm
  | _ => []

/-- `execute_regular`: the tasks of process `g.myrank`. -/
def executeRegular (st : Stores) (g : Pgrid) (i : BhInstruction) : Option (List Task) :=
  (mappingChunks st g i.operands).map fun groups =>
    (groups.flatMap (groupTasks st g.myrank i)).foldl batchSchedule []

/-! ## `batch_flush` -/

section Flush
variable {V : Type}

/-- A message: what it is about, its number of bytes, and the elements. -/
structure Message (V : Type) where
  id : ChunkId
  bytes : ℕ
  data : List V

/-- What a process expected to receive, and what it received. -/
structure Receipt where
  id : ChunkId
  bytes : ℕ
  gotId : ChunkId
  gotBytes : ℕ
  deriving DecidableEq, Repr

def Receipt.Matched (r : Receipt) : Prop := r.gotId = r.id ∧ r.gotBytes = r.bytes

instance (r : Receipt) : Decidable r.Matched := inferInstanceAs (Decidable (_ ∧ _))

/-- The memory of a process, and its receipts so far. -/
structure Node (V : Type) where
  mem : Mem V
  receipts : List Receipt

/-- The number of bytes of a contiguous view. -/
def viewBytes (v : BhView) (b : BhBase) : ℕ := bhNelementsNbcast v * bhTypeSize b.type

/-- `MPI_Send` of a view's elements, from its start on. -/
def sendView (id : ChunkId) (v : BhView) (s : Node V) : Message V :=
  match v.base with
  | none => ⟨id, 0, []⟩
  | some b => ⟨id, viewBytes v b, (List.range (bhNelementsNbcast v)).map fun k : ℕ => s.mem (b, v.start + k)⟩

/-- `MPI_Recv` into a view's elements, from its start on. -/
def recvView (id : ChunkId) (v : BhView) (msg : Message V) (s : Node V) : Node V :=
  match v.base with
  | none => s
  | some b =>
    { mem := fun l =>
        if l.1 = b ∧ v.start ≤ l.2 then (msg.data[(l.2 - v.start).toNat]?).getD (s.mem l) else s.mem l
      receipts := s.receipts ++ [⟨id, viewBytes v b, msg.id, msg.bytes⟩] }

/-- One task of `batch_flush`; the child engine runs an instruction. -/
def Task.action (I : Interp V) : Task → Network.Action ℕ (Node V) (Message V)
  | .inst i => .act fun s => { s with mem := runWhole I i s.mem }
  | .send id rank view => .send rank (sendView id view)
  | .recv id rank view => .recv rank (recvView id view)

/-- The processes with their tasks before them. -/
def cluster (I : Interp V) (worldsize : ℕ) (tasks : ℕ → List Task) (mems : ℕ → Mem V) :
    Network.Net ℕ (Node V) (Message V) where
  prog r := if r < worldsize then (tasks r).map (Task.action I) else []
  state r := ⟨mems r, []⟩
  chan _ _ := []

end Flush

/-! ## Distributed arrays -/

/-- The local arrays of a base, one process after the other. -/
def gathered {V : Type} (st : Stores) (worldsize : ℕ) (mems : ℕ → Mem V) (b : BhBase) : List V :=
  (List.range worldsize).flatMap fun r => (List.range (arrayLocalNelem worldsize r b)).map fun k : ℕ =>
    mems r (arrayGetLocal st ⟨worldsize, r⟩ b, (k : ℤ))

/-- The elements of a base on one process. -/
def contentsOf {V : Type} (m : Mem V) (b : BhBase) : List V :=
  (List.range b.nelem).map fun k : ℕ => m (b, (k : ℤ))

end Bohrium.Cluster
