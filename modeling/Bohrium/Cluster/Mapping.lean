import Bohrium.Core.Instruction
import Bohrium.Library.Box
import Mathlib.Logic.Encodable.Basic
import Mathlib.Logic.Equiv.List
import Mathlib.Data.Nat.Pairing

/-! # Array chunks of the cluster engine

`vem/cluster/mapping.cpp` and the part of `array.cpp` and `tmp.cpp` it uses. A base array is cut into
one stretch per process; a chunk is a box of an operand's index space that lies in one stretch. The
vector of chunks holds one chunk per operand for each box, so the model keeps it as a list of groups.
Sizes are integers without a bound and the quotient of `ceil` is exact. -/
namespace Bohrium.Cluster
open Strided
set_option autoImplicit false

/-- `pgrid_worldsize` and `pgrid_myrank`. -/
structure Pgrid where
  worldsize : ℕ
  myrank : ℕ
  deriving DecidableEq, Repr

/-- The addresses that the stores of local and of temporary arrays hand out. A process asks once for
each global array, and once for the chunk and for the send buffer of an operand in a box; no address
is handed out twice. -/
structure Stores where
  ofLocal : BhBase → ℕ
  ofChunk : List ℕ → ℕ → ℕ
  ofBuffer : List ℕ → ℕ → ℕ
  local_inj : ∀ b b', ofLocal b = ofLocal b' → b = b'
  chunk_inj : ∀ c o c' o', ofChunk c o = ofChunk c' o' → c = c' ∧ o = o'
  buffer_inj : ∀ c o c' o', ofBuffer c o = ofBuffer c' o' → c = c' ∧ o = o'
  chunk_ne_local : ∀ c o b, ofChunk c o ≠ ofLocal b
  buffer_ne_local : ∀ c o b, ofBuffer c o ≠ ofLocal b
  chunk_ne_buffer : ∀ c o c' o', ofChunk c o ≠ ofBuffer c' o'

/-- Addresses that are read off what is asked for. -/
def plainStores : Stores where
  ofLocal b := 3 * Nat.pair b.addr (Nat.pair b.nelem b.type.ctorIdx)
  ofChunk c o := 3 * Encodable.encode (c, o) + 1
  ofBuffer c o := 3 * Encodable.encode (c, o) + 2
  local_inj := by
    intro b b' h
    have h := Nat.eq_of_mul_eq_mul_left (by omega) h
    obtain ⟨haddr, hrest⟩ := Nat.pair_eq_pair.mp h
    obtain ⟨hnelem, htype⟩ := Nat.pair_eq_pair.mp hrest
    have htype : b.type = b'.type := by
      rw [← BhType.ofNat_ctorIdx b.type, htype, BhType.ofNat_ctorIdx]
    cases b
    cases b'
    simp_all
  chunk_inj := by
    intro c o c' o' h
    have h := Encodable.encode_injective (show Encodable.encode (c, o) = Encodable.encode (c', o') by omega)
    exact Prod.mk.inj h
  buffer_inj := by
    intro c o c' o' h
    have h := Encodable.encode_injective (show Encodable.encode (c, o) = Encodable.encode (c', o') by omega)
    exact Prod.mk.inj h
  chunk_ne_local := by
    intro c o b h
    omega
  buffer_ne_local := by
    intro c o b h
    omega
  chunk_ne_buffer := by
    intro c o c' o' h
    omega

/-- `array_local_nelem`: the last process gets the rest. -/
def arrayLocalNelem (worldsize rank : ℕ) (b : BhBase) : ℕ :=
  b.nelem / worldsize + if rank = worldsize - 1 then b.nelem % worldsize else 0

/-- `array_get_local`. -/
def arrayGetLocal (st : Stores) (g : Pgrid) (b : BhBase) : BhBase :=
  ⟨st.ofLocal b, b.type, arrayLocalNelem g.worldsize g.myrank b⟩

/-- `ary_chunk`. -/
structure AryChunk where
  rank : ℕ
  ary : BhView
  coord : List ℕ
  temporary : Bool
  deriving DecidableEq, Repr

/-! ## `find_largest_chunk` -/

/-- The process that holds the element at a global offset, the offset there, and the number of
elements there. A rank below zero, which the source asserts away, is rank zero here. -/
def locate (worldsize nelem : ℕ) (start : ℤ) : ℕ × ℤ × ℤ :=
  let localsize : ℤ := ↑(nelem / worldsize)
  -- the last process may hold more than `localsize`
  let rank := if 0 < localsize then min (start.tdiv localsize).toNat (worldsize - 1) else worldsize - 1
  (rank, start - rank * localsize,
    if rank = worldsize - 1 then ↑(nelem / worldsize + nelem % worldsize) else localsize)

def ceilDiv (a b : ℤ) : ℤ := -(-a / b)

/-- The largest length in each dimension: `room` elements are left behind `offset`, and `maxDims` are
the lengths up to the end of the search. A negative length is zero. -/
def extents (room : ℤ) : ℤ → List Dim → List ℕ → List ℕ
  | offset, d :: ds, m :: ms =>
    let dim := if 0 < d.stride then min (ceilDiv (room - offset) d.stride).toNat m else m
    dim :: extents room (offset + (dim - 1) * d.stride) ds ms
  | _, _, _ => []

/-- The lengths that an operand allows. -/
def operandShape (worldsize : ℕ) (v : BhView) (b : BhBase) (start stop : List ℕ) : List ℕ :=
  let (_, localStart, localsize) := locate worldsize b.nelem (v.offset start)
  extents (localsize - localStart) 0 v.dims (List.zipWith (· - ·) stop start)

/-- The smallest lengths over all operands, from `numeric_limits<bh_intp>::max()` on. -/
def chunkShape (worldsize : ℕ) (operands : List BhView) (start stop : List ℕ) : List ℕ :=
  operands.foldl (fun shape v =>
    match v.base with
    | none => shape
    | some b => List.zipWith min shape (operandShape worldsize v b start stop))
    (List.replicate start.length (2 ^ 63 - 1))

/-- The number of elements of a remote chunk: dimensions with a zero stride do not count. -/
def packedNelem : List ℕ → List Dim → ℕ
  | n :: shape, d :: ds => if d.stride = 0 then packedNelem shape ds else packedNelem shape ds * n
  | _, _ => 1

/-- The dimensions of a remote chunk: packed, but a zero stride stays. -/
def packedDims : List ℕ → List Dim → List Dim
  | n :: shape, d :: ds => ⟨n, if d.stride = 0 then 0 else packedNelem shape ds⟩ :: packedDims shape ds
  | _, _ => []

/-- The chunk of the operand at position `o`: a view of the local array, or of a temporary array that
will receive the data. -/
def chunkOf (st : Stores) (g : Pgrid) (start shape : List ℕ) (o : ℕ) (v : BhView) (b : BhBase) : AryChunk :=
  let (rank, localStart, _) := locate g.worldsize b.nelem (v.offset start)
  if rank = g.myrank then
    ⟨rank, ⟨some (arrayGetLocal st g b), localStart, List.zipWith (fun n d => ⟨n, d.stride⟩) shape v.dims⟩,
      start, false⟩
  else
    ⟨rank, ⟨some ⟨st.ofChunk start o, b.type, packedNelem shape v.dims⟩, 0, packedDims shape v.dims⟩,
      start, true⟩

/-- The chunks of a box, one for each operand, `none` for a constant. -/
def chunksAt (st : Stores) (g : Pgrid) (operands : List BhView) (start shape : List ℕ) :
    List (Option AryChunk) :=
  operands.zipIdx.map fun p => p.1.base.map (chunkOf st g start shape p.2 p.1)

/-- `find_largest_chunk`: the chunks of the largest box, and the next corner. -/
def findLargestChunk (st : Stores) (g : Pgrid) (operands : List BhView) (start stop : List ℕ) :
    List (Option AryChunk) × List ℕ :=
  let shape := chunkShape g.worldsize operands start stop
  (chunksAt st g operands start shape, List.zipWith (· + ·) start shape)

/-! ## `get_chunks` -/

/-- `get_chunks`: one box from `start` on, then a search from each of its other corners, in the order
in which `corner` counts. -/
def getChunks (st : Stores) (g : Pgrid) (operands : List BhView) :
    ℕ → List ℕ → List ℕ → Option (List (List (Option AryChunk)))
  | 0, _, _ => none
  | fuel + 1, start, stop =>
    if (List.zipWith (fun l h => decide (h ≤ l)) start stop).any id then some []
    else
      let (chunks, new) := findLargestChunk st g operands start stop
      ((Box.corners start.length).tail.mapM fun c =>
        getChunks st g operands fuel (Box.pick c start new) (Box.pick c new stop)).map
          fun rest => chunks :: rest.flatten

/-- `mapping_chunks`: the search over the whole index space of the first operand. The sum of the
lengths bounds the depth of the recursion. -/
def mappingChunks (st : Stores) (g : Pgrid) (operands : List BhView) :
    Option (List (List (Option AryChunk))) :=
  let shape := (operands.headD ⟨none, 0, []⟩).shape
  getChunks st g operands (shape.sum + 1) (List.replicate shape.length 0) shape

end Bohrium.Cluster
