import Bohrium.Core.Mirror
import Bohrium.Proxy.Socket

/-! # Execute requests

`nw_execute` and `ArrayMan_client_bh_ir_package` on the client, `HandleSocket` and the `EXECUTE` branch of
`HandleCommand` on the server. Both walk the instructions of a batch on their own: the client expects
the data of a `BH_SYNC` when it comes to it, and forgets an array at its `BH_DISCARD`; the server does its
part after the child has executed the batch. What the server finds in the packet is the parameter
`decode`. -/
namespace Bohrium.Proxy
open Duplex Socket
set_option autoImplicit false

/-! ## Data -/

def bhSuccess : BitVec 64 := 0

def bhError : BitVec 64 := 1

/-- `bh_base_size`. -/
def bhBaseSize (b : BhBase) : BitVec 64 := BitVec.ofNat 64 (b.nelem * bhTypeSize b.type)

/-- Which calls of `mmap` and `munmap` fail, by the address of the array at the client. -/
structure Machine where
  mallocFails : ℕ → Bool
  freeFails : ℕ → Bool

/-- `bh_data_malloc`: there is no data for an array without bytes. -/
def bhDataMalloc (fails : Bool) (b : BhBase) : Option Contents → Option Contents
  | some d => some d
  | none => if bhBaseSize b = 0 || (bhBaseSize b).msb || fails then none else some fun _ => 0

/-- `bh_data_free`: the status, and the data afterwards. -/
def bhDataFree (fails : Bool) : Option Contents → BitVec 64 × Option Contents
  | none => (bhSuccess, none)
  | some d => if fails then (bhError, some d) else (bhSuccess, none)

/-- The loops over the instructions: all statuses. The code keeps only the last one. -/
def inspectAll {S I : Type} (inspect : S → I → Proc UInt8 (BitVec 64 × S)) : List I → S → Proc UInt8 (List (BitVec 64) × S)
  | [], s => pure ([], s)
  | i :: is, s => do
    let (e, s) ← inspect s i
    let (es, s) ← inspectAll inspect is s
    pure (e :: es, s)

/-! ## The message -/

/-- `array_header` with whether the data pointer of its array is set. -/
structure ArrayHeader extends NewArray where
  hasData : Bool
  deriving DecidableEq, Repr

/-- What is packed in an `EXECUTE` packet. -/
structure BhirMsg where
  instrs : List BhInstruction
  arys : List ArrayHeader
  deriving DecidableEq, Repr

/-! ## The client -/

/-- `server_known_arrays`, and the data of the client's arrays. -/
structure Client where
  known : Finset ℕ
  data : ℕ → Option Contents

namespace Client

/-- The headers of the new arrays. -/
def arrayHeaders (c : Client) (batch : List BhInstruction) : List ArrayHeader :=
  (announce c.known batch).2.map fun d => ⟨d, (c.data d.id).isSome⟩

/-- `sendArrayData` for one array. -/
def arrayPacket (data : ℕ → Option Contents) (d : NewArray) : List UInt8 :=
  match data d.id with
  | none => []
  | some e => sendPacket ⟨PacketProtocol.array.code, bhBaseSize d.ary, BitVec.ofNat 64 d.id⟩
      (some (e.bytes (bhBaseSize d.ary).toNat))

/-- `sendArrayData` takes the arrays from a stack. -/
def sendArrayData (data : ℕ → Option Contents) (darys : List NewArray) : List UInt8 :=
  darys.reverse.flatMap (arrayPacket data)

/-- The first part of `ArrayMan_client_bh_ir_package`, which sends the batch and the new arrays. -/
def package (payload : List UInt8) (c : Client) (batch : List BhInstruction) : Proc UInt8 Client :=
  let (known, darys) := announce c.known batch
  .send (sendPacket ⟨PacketProtocol.execute.code, BitVec.ofNat 64 payload.length, 0⟩ (some payload))
    (.send (sendArrayData c.data darys) (pure { c with known }))

def inspect (mach : Machine) (c : Client) (i : BhInstruction) : Proc UInt8 (BitVec 64 × Client) :=
  match i.opcode, i.operand0.base with
  | .sync, none => pure (bhError, c)
  | .sync, some b =>
    if b.addr ∈ c.known then do
      let data := bhDataMalloc (mach.mallocFails b.addr) b (c.data b.addr)
      let (res, data) ← receiveArrayPacket data (bhBaseSize b) .sync (BitVec.ofNat 64 b.addr)
      pure (if res = .success then bhSuccess else bhError, { c with data := Function.update c.data b.addr data })
    else pure (bhError, c)
  | .free, some b =>
    pure (bhSuccess, { c with
      data := Function.update c.data b.addr (bhDataFree (mach.freeFails b.addr) (c.data b.addr)).2 })
  | .discard, some b => pure (bhSuccess, { c with known := c.known.erase b.addr })
  | _, _ => pure (bhSuccess, c)

/-- `GetResponse(BH_PTC_EXECUTE)`: whether the response came, and the status. -/
def getResponse : Proc UInt8 (Bool × BitVec 64) := do
  match ← Socket.receivePacket with
  | none => pure (false, bhError)
  | some (h, data) =>
    if h.packetID = PacketProtocol.execute.code ∧ h.packetSize = 8 then pure (true, wordOf data)
    else pure (false, bhError)

/-- How an `nw_execute` ends: the client afterwards, what its calls of `inspect` returned, whether it got
the response, and the result. -/
structure Reply where
  client : Client
  inspected : List (BitVec 64)
  responded : Bool
  result : BitVec 64

/-- The rest of `nw_execute`. An error of the last instruction ends it before the response. -/
def finish (mach : Machine) (batch : List BhInstruction) (c : Client) : Proc UInt8 Reply := do
  let (es, c) ← inspectAll (inspect mach) batch c
  if es.getLastD bhSuccess ≠ bhSuccess then pure ⟨c, es, false, es.getLastD bhSuccess⟩
  else do
    let (responded, res) ← getResponse
    pure ⟨c, es, responded, res⟩

/-- `nw_execute`. -/
def execute (payload : List UInt8) (mach : Machine) (c : Client) (batch : List BhInstruction) : Proc UInt8 Reply :=
  package payload c batch >>= finish mach batch

end Client

/-! ## The server -/

/-- The arrays of the client on the server, and the data of the structs that mirror them. -/
structure Server where
  mirror : Mirror
  data : Slot → Option Contents

/-- What the child does with a batch: its status and the data that each array has afterwards, by the
address of the array at the client. -/
structure Child where
  status : BitVec 64
  data : ℕ → Option Contents

/-- `(*map_server2client)[ary]`, which makes an entry if there is none. -/
def remoteOf (m : Mirror) (slot : Slot) : ℕ × Mirror :=
  match m.toRemote slot with
  | some id => (id, m)
  | none => (0, { m with toRemote := Function.update m.toRemote slot (some 0) })

namespace Server

/-- The data of a new array. The stack of `HandleCommand` holds the struct that was inserted for it. -/
def receiveArray (mach : Machine) (s : Server) (a : ArrayHeader) : Proc UInt8 Server :=
  match s.mirror.toSlot a.id with
  | none => .fail
  | some slot =>
    if a.hasData then do
      let b := s.mirror.header slot
      let (key, mirror) := remoteOf s.mirror slot
      let (res, data) ← receiveArrayPacket (bhDataMalloc (mach.mallocFails a.id) b none) (bhBaseSize b) .array
        (BitVec.ofNat 64 key)
      pure ⟨mirror, Function.update s.data slot (if res = .success then data else none)⟩
    else pure { s with data := Function.update s.data slot none }

def inspect (mach : Machine) (s : Server) (i : LocalInstr) : Proc UInt8 (BitVec 64 × Server) :=
  match i.opcode, i.operands.headD none with
  | .sync, none => .fail
  | .sync, some slot =>
    let size := bhBaseSize (s.mirror.header slot)
    let (key, mirror) := remoteOf s.mirror slot
    .send (sendPacket ⟨PacketProtocol.sync.code, size, BitVec.ofNat 64 key⟩
        ((s.data slot).map fun d => d.bytes size.toNat))
      (pure (bhSuccess, { s with mirror }))
  | .free, some slot =>
    let (e, data) := bhDataFree (mach.freeFails ((s.mirror.toRemote slot).getD 0)) (s.data slot)
    pure (e, { s with data := Function.update s.data slot data })
  | .discard, none => .fail
  | .discard, some slot =>
    -- the status of this `bh_data_free` is not looked at
    let (_, data) := bhDataFree (mach.freeFails ((s.mirror.toRemote slot).getD 0)) (s.data slot)
    match s.mirror.remove slot with
    | none => .fail
    | some mirror => pure (bhSuccess, ⟨mirror, Function.update s.data slot data⟩)
  | _, _ => pure (bhSuccess, s)

/-- `sendresponce(BH_PTC_EXECUTE, error)`. -/
def sendresponce (error : BitVec 64) : List UInt8 :=
  sendPacket ⟨PacketProtocol.execute.code, 8, 0⟩ (some (wordBytes error))

/-- The arrays as the child leaves them. -/
def afterChild (child : Child) (s : Server) : Server :=
  { s with data := fun slot =>
      match s.mirror.toRemote slot with
      | some id => child.data id
      | none => s.data slot }

/-- `HandleCommand` from the execution of the batch on: the server afterwards, and what its calls of
`inspect` returned. A failed child ends it before the first of them. -/
def serve (mach : Machine) (child : Child) (instrs : List LocalInstr) (s : Server) :
    Proc UInt8 (List (BitVec 64) × Server) :=
  if child.status ≠ bhSuccess then .send (sendresponce child.status) (pure ([], afterChild child s))
  else do
    let (es, s) ← inspectAll (inspect mach) instrs (afterChild child s)
    .send (sendresponce (es.getLastD bhSuccess)) (pure (es, s))

/-- The `EXECUTE` branch of `HandleCommand`. -/
def handleCommand (mach : Machine) (child : Child) (msg : BhirMsg) (s : Server) :
    Proc UInt8 (List (BitVec 64) × Server) :=
  match msg.arys.foldlM (fun m a => m.insert a.toNewArray) s.mirror with
  | none => .fail
  | some mirror => do
    let s ← msg.arys.reverse.foldlM (receiveArray mach) { s with mirror }
    match msg.instrs.mapM (convertInstr s.mirror) with
    | none => .fail
    | some instrs => serve mach child instrs s

/-- `HandleSocket`, for `EXECUTE` packets. -/
def handleSocket (decode : List UInt8 → Option BhirMsg) (mach : Machine) (child : Child) (s : Server) :
    Proc UInt8 (List (BitVec 64) × Server) := do
  match ← Socket.receivePacket with
  | none => pure ([], s)
  | some (h, data) =>
    if h.packetID = PacketProtocol.execute.code then
      match decode data with
      | none => .fail
      | some msg => handleCommand mach child msg s
    else .fail

end Server

/-! ## Sessions -/

/-- Between two requests: the two sides, and the bytes that they have not read. -/
structure Session where
  known : Finset ℕ
  server : Server
  up : List UInt8
  down : List UInt8

def Session.start : Session := ⟨∅, ⟨Mirror.empty, fun _ => none⟩, [], []⟩

/-- An execute request, with the data of the client's arrays and all that happens outside. -/
structure Request where
  batch : List BhInstruction
  payload : List UInt8
  data : ℕ → Option Contents
  client : Machine
  server : Machine
  child : Child

section Session
variable (decode : List UInt8 → Option BhirMsg)

/-- The two processes of a request. -/
def Session.net (s : Session) (r : Request) : Net UInt8 Client.Reply (List (BitVec 64) × Server) :=
  ⟨Client.execute r.payload r.client ⟨s.known, r.data⟩ r.batch, s.server.handleSocket decode r.server r.child,
    s.up, s.down⟩

/-- A request that the code is made for: no array is used after its `BH_DISCARD`, the system operations
name arrays, a base has one struct and a size that is no overflow, and the packet decodes. -/
structure Legal (s : Session) (r : Request) : Prop where
  batch : LegalBatch r.batch
  names : ∀ i ∈ r.batch, i.opcode = .sync → i.operand0.base.isSome
  struct : ∀ b ∈ basesOf r.batch, ∀ b' ∈ basesOf r.batch, b.addr = b'.addr → b = b'
  sizes : ∀ b ∈ basesOf r.batch, b.nelem * bhTypeSize b.type < 2 ^ 63
  payload : r.payload ≠ [] ∧ r.payload.length < 2 ^ 63
  decodes : decode r.payload = some ⟨r.batch, Client.arrayHeaders ⟨s.known, r.data⟩ r.batch⟩

/-- Both sides end in step: when the client has its response, nothing is left on the socket, it knows
the arrays that the server mirrors, and no error of an `inspect` is lost. -/
structure InStep (reply : Client.Reply) (es : List (BitVec 64)) (server : Server) (up down : List UInt8) : Prop where
  consumed : up = [] ∧ down = []
  known : ∀ id, id ∈ reply.client.known ↔ (server.mirror.toSlot id).isSome
  reported : (∃ e ∈ reply.inspected ++ es, e ≠ bhSuccess) → reply.result ≠ bhSuccess

/-- The requests on which nothing goes wrong. A failed child is fine if the batch has nothing to inspect.
A new array with data, and an array of a `BH_SYNC`, has bytes and memory for them, and the latter its old
size, data that the child left and no `BH_FREE` before. Only the last instruction is a failing
`BH_FREE`. -/
structure Clean (s : Session) (r : Request) : Prop where
  child : r.child.status ≠ bhSuccess → ∀ i ∈ r.batch, i.opcode ≠ .sync ∧ i.opcode ≠ .discard
  new : ∀ d ∈ (announce s.known r.batch).2, (r.data d.id).isSome →
    0 < d.ary.nelem * bhTypeSize d.ary.type ∧ r.server.mallocFails d.id = false
  sync : r.child.status = bhSuccess → ∀ i ∈ r.batch, i.opcode = .sync → ∀ b, i.operand0.base = some b →
    0 < b.nelem * bhTypeSize b.type ∧ (r.child.data b.addr).isSome ∧
      ((r.data b.addr).isSome ∨ r.client.mallocFails b.addr = false) ∧
      ∀ slot, s.server.mirror.toSlot b.addr = some slot → bhBaseSize (s.server.mirror.header slot) = bhBaseSize b
  freed : r.child.status = bhSuccess → r.batch.Pairwise fun i j => i.opcode = .free → j.opcode = .sync →
    ∀ b b', i.operand0.base = some b → j.operand0.base = some b' → b'.addr ≠ b.addr
  free : r.child.status = bhSuccess → ∀ i ∈ r.batch.dropLast, i.opcode = .free → ∀ b, i.operand0.base = some b →
    (r.child.data b.addr).isSome → r.server.freeFails b.addr = false

end Session

/-! ## One instruction -/

theorem toNat_bhBaseSize {b : BhBase} (h : b.nelem * bhTypeSize b.type < 2 ^ 63) :
    (bhBaseSize b).toNat = b.nelem * bhTypeSize b.type := by
  rw [bhBaseSize, BitVec.toNat_ofNat]
  omega

theorem bhDataMalloc_isSome {b : BhBase} {fails : Bool} {data : Option Contents}
    (hpos : 0 < b.nelem * bhTypeSize b.type) (hlt : b.nelem * bhTypeSize b.type < 2 ^ 63)
    (h : data.isSome ∨ fails = false) : ∃ d, bhDataMalloc fails b data = some d := by
  cases data with
  | some d => exact ⟨d, rfl⟩
  | none =>
    have hfails : fails = false := by simpa using h
    have hne : bhBaseSize b ≠ 0 := by
      intro h0
      have hsize := toNat_bhBaseSize hlt
      rw [h0, BitVec.ofNat_eq_ofNat, BitVec.toNat_ofNat, Nat.zero_mod] at hsize
      omega
    have hmsb : (bhBaseSize b).msb = false := by
      rw [BitVec.msb_eq_false_iff_two_mul_lt, toNat_bhBaseSize hlt]
      omega
    exact ⟨fun _ => 0, by rw [bhDataMalloc, decide_eq_false hne, hmsb, hfails]; rfl⟩

/-- Without data, or if `munmap` succeeds, there is no error and no data is left. -/
theorem bhDataFree_eq {fails : Bool} {data : Option Contents} (h : data.isSome → fails = false) :
    bhDataFree fails data = (bhSuccess, none) := by
  cases data with
  | none => rfl
  | some d =>
    rw [h rfl]
    rfl

theorem remoteOf_eq {m : Mirror} {slot : Slot} {id : ℕ} (h : m.toRemote slot = some id) : remoteOf m slot = (id, m) := by
  rw [remoteOf, h]

/-- Different arrays have different mirrors. -/
theorem slot_ne {m : Mirror} (h : m.Valid) {id id' : ℕ} {slot slot' : Slot} (hs : m.toSlot id = some slot)
    (hs' : m.toSlot id' = some slot') (hne : id' ≠ id) : slot' ≠ slot := by
  rintro rfl
  rw [h.inverse] at hs hs'
  rw [hs] at hs'
  exact hne (Option.some.inj hs').symm

/-- The two sides before they inspect the rest of a batch, which was translated with the mirrors `m₀`. -/
structure Ready (cm sm : Machine) (m₀ : Mirror) (c : Client) (s : Server) (batch : List BhInstruction) : Prop where
  agree : Agree c.known s.mirror
  legal : LegalBatch batch
  place : ∀ b ∈ basesOf batch, ∃ slot, s.mirror.toSlot b.addr = some slot ∧ m₀.toSlot b.addr = some slot
  sync : ∀ i ∈ batch, i.opcode = .sync → ∃ b, i.operand0.base = some b ∧
    0 < b.nelem * bhTypeSize b.type ∧ b.nelem * bhTypeSize b.type < 2 ^ 63 ∧
    ((c.data b.addr).isSome ∨ cm.mallocFails b.addr = false) ∧
    ∀ slot, s.mirror.toSlot b.addr = some slot →
      bhBaseSize (s.mirror.header slot) = bhBaseSize b ∧ (s.data slot).isSome
  freed : batch.Pairwise fun i j => i.opcode = .free → j.opcode = .sync →
    ∀ b b', i.operand0.base = some b → j.operand0.base = some b' → b'.addr ≠ b.addr
  free : ∀ i ∈ batch.dropLast, i.opcode = .free → ∀ b, i.operand0.base = some b →
    ∀ slot, s.mirror.toSlot b.addr = some slot → (s.data slot).isSome → sm.freeFails b.addr = false

section Instruction
variable {cm sm : Machine} {m₀ : Mirror} {c : Client} {s : Server} {i : BhInstruction} {rest : List BhInstruction}

/-- What the two sides do at an instruction: the server sends what the client expects, and only the last
instruction of a batch may have an error, at the server. -/
def StepsTogether (cm sm : Machine) (m₀ : Mirror) (c : Client) (s : Server) (i : BhInstruction)
    (rest : List BhInstruction) : Prop :=
  ∃ out e c' s', (Server.inspect sm s (localInstr m₀ i)).Yields [] out (e, s') ∧
    (Client.inspect cm c i).Yields out [] (bhSuccess, c') ∧ (rest ≠ [] → e = bhSuccess) ∧
    Ready cm sm m₀ c' s' rest

theorem mem_dropLast_cons {α : Type} {a x : α} {l : List α} (h : a ∈ l.dropLast) : a ∈ (x :: l).dropLast := by
  cases l with
  | nil => cases h
  | cons y l => exact List.mem_cons_of_mem x h

/-- The array that a system instruction names, and its mirror. -/
theorem Ready.operand (h : Ready cm sm m₀ c s (i :: rest)) (hop : bhOperands i.opcode = 1) {b : BhBase}
    (hb : i.operand0.base = some b) :
    ∃ slot, s.mirror.toSlot b.addr = some slot ∧ s.mirror.toRemote slot = some b.addr ∧
      (localInstr m₀ i).operands.headD none = some slot := by
  obtain ⟨slot, hs, hs₀⟩ := h.place b (List.mem_flatMap.mpr ⟨i, List.mem_cons_self, by
    rw [operands_eq_singleton hop]
    simp [hb]⟩)
  refine ⟨slot, hs, (h.agree.valid.inverse _ _).mp hs, ?_⟩
  rw [localInstr, operands_eq_singleton hop]
  simp [hb, hs₀]

/-- An instruction that changes nothing that matters. -/
theorem Ready.tail (h : Ready cm sm m₀ c s (i :: rest)) : Ready cm sm m₀ c s rest where
  agree := h.agree
  legal := h.legal.tail
  place := fun b hb => h.place b (mem_basesOf_cons hb)
  sync := (List.forall_mem_cons.mp h.sync).2
  freed := (List.pairwise_cons.mp h.freed).2
  free := fun j hj => h.free j (mem_dropLast_cons hj)

theorem steps_sync (h : Ready cm sm m₀ c s (i :: rest)) (hi : i.opcode = .sync) : StepsTogether cm sm m₀ c s i rest := by
  obtain ⟨b, hb, hpos, hlt, hmalloc, hslot⟩ := (List.forall_mem_cons.mp h.sync).1 hi
  obtain ⟨slot, hs, hr, hhead⟩ := h.operand (by rw [hi]; rfl) hb
  obtain ⟨hsize, hdata⟩ := hslot slot hs
  obtain ⟨e, he⟩ := Option.isSome_iff_exists.mp hdata
  obtain ⟨d, hd⟩ := bhDataMalloc_isSome hpos hlt hmalloc
  have hknown : b.addr ∈ c.known := (h.agree.keys b.addr).mpr (by rw [hs]; rfl)
  have hbytes : 0 < (bhBaseSize b).toNat := by
    rw [toNat_bhBaseSize hlt]
    exact hpos
  refine ⟨sendPacket ⟨PacketProtocol.sync.code, bhBaseSize b, BitVec.ofNat 64 b.addr⟩
      (some (e.bytes (bhBaseSize b).toNat)), bhSuccess,
    { c with data := Function.update c.data b.addr (some (d.store (e.bytes (bhBaseSize b).toNat))) }, s, ?_, ?_,
    fun _ => rfl, ?_⟩
  · have hop : (localInstr m₀ i).opcode = .sync := hi
    rw [Server.inspect, hop, hhead]
    dsimp only
    rw [remoteOf_eq hr, he, hsize, Option.map_some]
    have hsend := Proc.yields_send (sendPacket ⟨PacketProtocol.sync.code, bhBaseSize b, BitVec.ofNat 64 b.addr⟩
      (some (e.bytes (bhBaseSize b).toNat))) (Proc.yields_ret (bhSuccess, s))
    rw [List.append_nil] at hsend
    exact hsend
  · rw [Client.inspect, hi, hb]
    dsimp only
    rw [if_pos hknown, hd]
    exact (yields_receiveArrayPacket hbytes).bind_eq_ret rfl
  · refine { h.tail with sync := fun j hj hjs => ?_ }
    obtain ⟨b', hb', hpos', hlt', hmalloc', hslot'⟩ := h.tail.sync j hj hjs
    refine ⟨b', hb', hpos', hlt', ?_, hslot'⟩
    by_cases heq : b'.addr = b.addr
    · left
      rw [heq]
      simp
    · dsimp only
      rw [Function.update_of_ne heq]
      exact hmalloc'

theorem steps_free (h : Ready cm sm m₀ c s (i :: rest)) (hi : i.opcode = .free) : StepsTogether cm sm m₀ c s i rest := by
  have hop : (localInstr m₀ i).opcode = .free := hi
  have hone : bhOperands i.opcode = 1 := by rw [hi]; rfl
  cases hb : i.operand0.base with
  | none =>
    refine ⟨[], bhSuccess, c, s, ?_, ?_, fun _ => rfl, h.tail⟩
    · have hhead : (localInstr m₀ i).operands.headD none = none := by
        rw [localInstr, operands_eq_singleton hone]
        simp [hb]
      rw [Server.inspect, hop, hhead]
      exact Proc.yields_ret _
    · rw [Client.inspect, hi, hb]
      exact Proc.yields_ret _
  | some b =>
    obtain ⟨slot, hs, hr, hhead⟩ := h.operand hone hb
    obtain ⟨r, hfree⟩ : ∃ r, r = bhDataFree (sm.freeFails b.addr) (s.data slot) := ⟨_, rfl⟩
    have hlast : rest ≠ [] → r = (bhSuccess, none) := by
      intro hrest
      have hmem : i ∈ (i :: rest).dropLast := by
        rw [List.dropLast_cons_of_ne_nil hrest]
        exact List.mem_cons_self
      rw [hfree]
      apply bhDataFree_eq
      exact h.free i hmem hi b hb slot hs
    refine ⟨[], r.1, { c with data := Function.update c.data b.addr (bhDataFree (cm.freeFails b.addr) (c.data b.addr)).2 },
      { s with data := Function.update s.data slot r.2 }, ?_, ?_, fun hrest => by rw [hlast hrest], ?_⟩
    · rw [Server.inspect, hop, hhead]
      dsimp only
      rw [hr, Option.getD_some, ← hfree]
      exact Proc.yields_ret _
    · rw [Client.inspect, hi, hb]
      exact Proc.yields_ret _
    · refine { h.tail with sync := fun j hj hjs => ?_, free := fun j hj hjf b' hb' slot' hs' hdata => ?_ }
      · obtain ⟨b', hb', hpos', hlt', hmalloc', hslot'⟩ := h.tail.sync j hj hjs
        have hne : b'.addr ≠ b.addr := (List.pairwise_cons.mp h.freed).1 j hj hi hjs b b' hb hb'
        refine ⟨b', hb', hpos', hlt', ?_, fun slot' hs' => ⟨(hslot' slot' hs').1, ?_⟩⟩
        · dsimp only
          rw [Function.update_of_ne hne]
          exact hmalloc'
        · dsimp only
          rw [Function.update_of_ne (slot_ne h.agree.valid hs hs' hne)]
          exact (hslot' slot' hs').2
      · dsimp only at hdata
        by_cases hsame : slot' = slot
        · rw [hsame, Function.update_self, hlast (List.ne_nil_of_mem (List.mem_of_mem_dropLast hj))] at hdata
          cases hdata
        · rw [Function.update_of_ne hsame] at hdata
          exact h.tail.free j hj hjf b' hb' slot' hs' hdata

theorem steps_discard (h : Ready cm sm m₀ c s (i :: rest)) (hi : i.opcode = .discard) :
    StepsTogether cm sm m₀ c s i rest := by
  have hop : (localInstr m₀ i).opcode = .discard := hi
  obtain ⟨b, hb⟩ := Option.isSome_iff_exists.mp ((List.forall_mem_cons.mp h.legal.names).1 hi)
  obtain ⟨slot, hs, hr, hhead⟩ := h.operand (by rw [hi]; rfl) hb
  obtain ⟨m, hremove, hvalid, htoSlot, hheader⟩ := Mirror.remove_spec h.agree.valid hs
  -- the rest of the batch does not use the array
  have hother : ∀ b' ∈ basesOf rest, b'.addr ≠ b.addr := by
    intro b' hb'
    obtain ⟨j, hj, hbj⟩ := List.mem_flatMap.mp hb'
    exact (List.pairwise_cons.mp h.legal.unused).1 j hj hi b hb b' hbj
  have hkeep : ∀ b' ∈ basesOf rest, ∀ slot', m.toSlot b'.addr = some slot' →
      s.mirror.toSlot b'.addr = some slot' ∧ slot' ≠ slot := by
    intro b' hb' slot' hs'
    rw [htoSlot, Function.update_of_ne (hother b' hb')] at hs'
    exact ⟨hs', slot_ne h.agree.valid hs hs' (hother b' hb')⟩
  have hmem : ∀ j ∈ rest, bhOperands j.opcode = 1 → ∀ b', j.operand0.base = some b' → b' ∈ basesOf rest := by
    intro j hj hone b' hb'
    refine List.mem_flatMap.mpr ⟨j, hj, ?_⟩
    rw [operands_eq_singleton hone]
    simp [hb']
  obtain ⟨r, hfree⟩ : ∃ r, r = bhDataFree (sm.freeFails b.addr) (s.data slot) := ⟨_, rfl⟩
  refine ⟨[], bhSuccess, { c with known := c.known.erase b.addr }, ⟨m, Function.update s.data slot r.2⟩, ?_, ?_,
    fun _ => rfl, ?_⟩
  · rw [Server.inspect, hop, hhead]
    dsimp only
    rw [hr, Option.getD_some, ← hfree, hremove]
    exact Proc.yields_ret _
  · rw [Client.inspect, hi, hb]
    exact Proc.yields_ret _
  · refine ⟨⟨fun id => ?_, hvalid⟩, h.legal.tail, fun b' hb' => ?_, fun j hj hjs => ?_, h.tail.freed,
      fun j hj hjf b' hb' slot' hs' hdata => ?_⟩
    · rw [Finset.mem_erase, h.agree.keys, htoSlot]
      by_cases hid : id = b.addr
      · simp [hid]
      · simp [hid]
    · obtain ⟨slot', hs', hs₀⟩ := h.tail.place b' hb'
      refine ⟨slot', ?_, hs₀⟩
      rw [htoSlot, Function.update_of_ne (hother b' hb')]
      exact hs'
    · obtain ⟨b', hb', hpos', hlt', hmalloc', hslot'⟩ := h.tail.sync j hj hjs
      refine ⟨b', hb', hpos', hlt', hmalloc', fun slot' hs' => ?_⟩
      obtain ⟨hs'', hne⟩ := hkeep b' (hmem j hj (by rw [hjs]; rfl) b' hb') slot' hs'
      dsimp only
      rw [hheader, Function.update_of_ne hne]
      exact hslot' slot' hs''
    · obtain ⟨hs'', hne⟩ := hkeep b' (hmem j (List.mem_of_mem_dropLast hj) (by rw [hjf]; rfl) b' hb') slot' hs'
      dsimp only at hdata
      rw [Function.update_of_ne hne] at hdata
      exact h.tail.free j hj hjf b' hb' slot' hs'' hdata

theorem server_inspect_other {l : LocalInstr} (hs : l.opcode ≠ .sync) (hf : l.opcode ≠ .free) (hd : l.opcode ≠ .discard) :
    Server.inspect sm s l = .ret (bhSuccess, s) := by
  unfold Server.inspect
  split <;> first | contradiction | rfl

theorem client_inspect_other (hs : i.opcode ≠ .sync) (hf : i.opcode ≠ .free) (hd : i.opcode ≠ .discard) :
    Client.inspect cm c i = .ret (bhSuccess, c) := by
  unfold Client.inspect
  split <;> first | contradiction | rfl

theorem steps_together (h : Ready cm sm m₀ c s (i :: rest)) : StepsTogether cm sm m₀ c s i rest := by
  by_cases hs : i.opcode = .sync
  · exact steps_sync h hs
  · by_cases hf : i.opcode = .free
    · exact steps_free h hf
    · by_cases hd : i.opcode = .discard
      · exact steps_discard h hd
      · refine ⟨[], bhSuccess, c, s, ?_, ?_, fun _ => rfl, h.tail⟩
        · rw [server_inspect_other hs hf hd]
          exact Proc.yields_ret _
        · rw [client_inspect_other hs hf hd]
          exact Proc.yields_ret _

end Instruction

/-! ## The whole batch -/

section Batch
variable {cm sm : Machine} {m₀ : Mirror} {c : Client} {s : Server} {batch : List BhInstruction}

theorem yields_inspectAll_cons {S I : Type} {inspect : S → I → Proc UInt8 (BitVec 64 × S)} {i : I} {is : List I}
    {s s' s'' : S} {e : BitVec 64} {es : List (BitVec 64)} {inp inp' out out' : List UInt8}
    (hi : (inspect s i).Yields inp out (e, s')) (his : (inspectAll inspect is s').Yields inp' out' (es, s'')) :
    (inspectAll inspect (i :: is) s).Yields (inp ++ inp') (out ++ out') (e :: es, s'') :=
  hi.bind (his.bind_eq_ret rfl)

/-- The client reads what the server sends, and they agree again. -/
theorem inspect_together (h : Ready cm sm m₀ c s batch) :
    ∃ out es es' c' s', (inspectAll (Server.inspect sm) (batch.map (localInstr m₀)) s).Yields [] out (es, s') ∧
      (inspectAll (Client.inspect cm) batch c).Yields out [] (es', c') ∧ Agree c'.known s'.mirror ∧
      (∀ e ∈ es', e = bhSuccess) ∧ ∀ e ∈ es.dropLast, e = bhSuccess := by
  induction batch generalizing c s with
  | nil => exact ⟨[], [], [], c, s, Proc.yields_ret _, Proc.yields_ret _, h.agree, by simp, by simp⟩
  | cons i rest ih =>
    obtain ⟨out, e, c₁, s₁, hserver, hclient, he, hready⟩ := steps_together h
    obtain ⟨out', es, es', c', s', hserver', hclient', hagree, hes', hes⟩ := ih hready
    refine ⟨out ++ out', e :: es, bhSuccess :: es', c', s', yields_inspectAll_cons hserver hserver',
      yields_inspectAll_cons hclient hclient', hagree, List.forall_mem_cons.mpr ⟨rfl, hes'⟩, ?_⟩
    intro e' he'
    cases es with
    | nil => cases he'
    | cons e₂ es =>
      rw [List.dropLast_cons_of_ne_nil (List.cons_ne_nil _ _)] at he'
      rcases List.mem_cons.mp he' with rfl | he'
      · apply he
        rintro rfl
        have hnil := hserver' []
        cases hnil
      · exact hes e' he'

/-- Without `BH_SYNC` and `BH_DISCARD` the client expects nothing and forgets nothing. -/
theorem client_inspectAll_quiet (h : ∀ i ∈ batch, i.opcode ≠ .sync ∧ i.opcode ≠ .discard) :
    ∃ es c', (inspectAll (Client.inspect cm) batch c).Yields [] [] (es, c') ∧ c'.known = c.known ∧
      ∀ e ∈ es, e = bhSuccess := by
  induction batch generalizing c with
  | nil => exact ⟨[], c, Proc.yields_ret _, rfl, by simp⟩
  | cons i rest ih =>
    rw [List.forall_mem_cons] at h
    obtain ⟨c₁, hi, hknown⟩ : ∃ c₁, (Client.inspect cm c i).Yields [] [] (bhSuccess, c₁) ∧ c₁.known = c.known := by
      by_cases hf : i.opcode = .free
      · rw [Client.inspect, hf]
        cases i.operand0.base with
        | none => exact ⟨c, Proc.yields_ret _, rfl⟩
        | some b => exact ⟨_, Proc.yields_ret _, rfl⟩
      · rw [client_inspect_other h.1.1 hf h.1.2]
        exact ⟨c, Proc.yields_ret _, rfl⟩
    obtain ⟨es, c', hrest, hknown', hes⟩ := ih (c := c₁) h.2
    exact ⟨bhSuccess :: es, c', yields_inspectAll_cons hi hrest, hknown'.trans hknown,
      List.forall_mem_cons.mpr ⟨rfl, hes⟩⟩

/-- The response arrives. -/
theorem yields_getResponse (error : BitVec 64) :
    Client.getResponse.Yields (Server.sendresponce error) [] (true, error) := by
  refine Proc.Yields.bind_eq_ret (yields_receivePacket (code_lt .execute) ?_ ?_ ?_) ?_
  · rw [length_wordBytes]
    rfl
  · intro hnil
    have hlen := length_wordBytes error
    rw [hnil] at hlen
    cases hlen
  · rw [length_wordBytes]
    decide
  · show (if _ then _ else _) = _
    rw [if_pos ⟨rfl, rfl⟩, wordOf_wordBytes]
    rfl

theorem getLastD_eq {es : List (BitVec 64)} (h : ∀ e ∈ es, e = bhSuccess) : es.getLastD bhSuccess = bhSuccess := by
  rcases List.mem_cons.mp List.getLastD_mem_cons with heq | hmem
  · exact heq
  · exact h _ hmem

/-- An error of the server is the last of its statuses. -/
theorem getLastD_ne {es : List (BitVec 64)} (h : ∀ e ∈ es.dropLast, e = bhSuccess) (he : ∃ e ∈ es, e ≠ bhSuccess) :
    es.getLastD bhSuccess ≠ bhSuccess := by
  obtain ⟨e, hmem, hne⟩ := he
  have hnil : es ≠ [] := List.ne_nil_of_mem hmem
  rw [← List.dropLast_append_getLast hnil] at hmem
  rw [List.getLastD_eq_getLast?, List.getLast?_eq_some_getLast hnil, Option.getD_some]
  rcases List.mem_append.mp hmem with hmem | hmem
  · exact absurd (h e hmem) hne
  · rw [← List.mem_singleton.mp hmem]
    exact hne

/-- The client gets the response if none of its instructions failed. -/
theorem yields_finish {es : List (BitVec 64)} {c' : Client} {out : List UInt8} (error : BitVec 64)
    (h : (inspectAll (Client.inspect cm) batch c).Yields out [] (es, c')) (hes : ∀ e ∈ es, e = bhSuccess) :
    (Client.finish cm batch c).Yields (out ++ Server.sendresponce error) [] ⟨c', es, true, error⟩ := by
  refine h.bind ?_
  dsimp only
  rw [getLastD_eq hes, if_neg (by simp)]
  exact (yields_getResponse error).bind_eq_ret rfl

end Batch

/-! ## A request -/

section Request
variable {sm : Machine} {s : Server} {child : Child}

/-- The data of the new arrays arrives. -/
theorem yields_receiveArrays {data : ℕ → Option Contents} {arys : List ArrayHeader} (hvalid : s.mirror.Valid)
    (hslot : ∀ a ∈ arys, ∃ slot, s.mirror.toSlot a.id = some slot ∧ s.mirror.header slot = a.ary)
    (hdata : ∀ a ∈ arys, a.hasData = (data a.id).isSome)
    (hnew : ∀ a ∈ arys, (data a.id).isSome → 0 < a.ary.nelem * bhTypeSize a.ary.type ∧
      a.ary.nelem * bhTypeSize a.ary.type < 2 ^ 63 ∧ sm.mallocFails a.id = false) :
    ∃ s', (arys.foldlM (Server.receiveArray sm) s).Yields
      (arys.flatMap fun a => Client.arrayPacket data a.toNewArray) [] s' ∧ s'.mirror = s.mirror := by
  induction arys generalizing s with
  | nil => exact ⟨s, Proc.yields_ret _, rfl⟩
  | cons a arys ih =>
    rw [List.forall_mem_cons] at hslot hdata hnew
    obtain ⟨slot, hs, hheader⟩ := hslot.1
    have hr : s.mirror.toRemote slot = some a.id := (hvalid.inverse _ _).mp hs
    obtain ⟨s₁, hone, hmirror⟩ : ∃ s₁, (Server.receiveArray sm s a).Yields (Client.arrayPacket data a.toNewArray) [] s₁ ∧
        s₁.mirror = s.mirror := by
      rw [Server.receiveArray, hs, Client.arrayPacket]
      dsimp only
      rw [hdata.1]
      cases hd : data a.id with
      | none => exact ⟨_, Proc.yields_ret _, rfl⟩
      | some e =>
        obtain ⟨hpos, hlt, hmalloc⟩ := hnew.1 (by rw [hd]; rfl)
        obtain ⟨d, hd'⟩ := bhDataMalloc_isSome hpos hlt (Or.inr hmalloc : Option.isSome (none : Option Contents) ∨ _)
        have hbytes : 0 < (bhBaseSize a.ary).toNat := by
          rw [toNat_bhBaseSize hlt]
          exact hpos
        rw [Option.isSome_some, if_pos rfl, remoteOf_eq hr, hheader, hd']
        exact ⟨_, (yields_receiveArrayPacket hbytes).bind_eq_ret rfl, rfl⟩
    obtain ⟨s', hrest, hmirror'⟩ := ih (s := s₁) (hmirror ▸ hvalid) (hmirror ▸ hslot.2) hdata.2 hnew.2
    refine ⟨s', ?_, hmirror'.trans hmirror⟩
    rw [List.foldlM_cons, List.flatMap_cons]
    exact hone.bind hrest

/-- A failed child: the response is all that the server sends. -/
theorem serve_failed {instrs : List LocalInstr} (h : child.status ≠ bhSuccess) :
    (Server.serve sm child instrs s).Yields [] (Server.sendresponce child.status) ([], Server.afterChild child s) := by
  rw [Server.serve, if_pos h]
  have hsend := Proc.yields_send (Server.sendresponce child.status)
    (Proc.yields_ret (([] : List (BitVec 64)), Server.afterChild child s))
  rw [List.append_nil] at hsend
  exact hsend

/-- From the execution of the batch on: the client gets its response, and no error is lost. -/
theorem serve_finish {cm : Machine} {c : Client} {batch : List BhInstruction} (hagree : Agree c.known s.mirror)
    (hfail : child.status ≠ bhSuccess → ∀ i ∈ batch, i.opcode ≠ .sync ∧ i.opcode ≠ .discard)
    (hready : child.status = bhSuccess → Ready cm sm s.mirror c (Server.afterChild child s) batch) :
    ∃ out es s' reply, (Server.serve sm child (batch.map (localInstr s.mirror)) s).Yields [] out (es, s') ∧
      (Client.finish cm batch c).Yields out [] reply ∧ reply.responded = true ∧
      Agree reply.client.known s'.mirror ∧
      ((∃ e ∈ reply.inspected ++ es, e ≠ bhSuccess) → reply.result ≠ bhSuccess) := by
  by_cases hstatus : child.status = bhSuccess
  · rw [Server.serve, if_neg (by simpa using hstatus)]
    obtain ⟨out, es, es', c', s', hserver, hclient, hagree', hes', hes⟩ := inspect_together (hready hstatus)
    refine ⟨out ++ Server.sendresponce (es.getLastD bhSuccess), es, s', ⟨c', es', true, es.getLastD bhSuccess⟩, ?_,
      yields_finish _ hclient hes', rfl, hagree', ?_⟩
    · apply hserver.bind
      have hsend := Proc.yields_send (Server.sendresponce (es.getLastD bhSuccess)) (Proc.yields_ret (es, s'))
      rw [List.append_nil] at hsend
      exact hsend
    · rintro ⟨e, he, hne⟩
      rcases List.mem_append.mp he with he | he
      · exact absurd (hes' e he) hne
      · exact getLastD_ne hes ⟨e, he, hne⟩
  · obtain ⟨es', c', hclient, hknown, hes'⟩ := client_inspectAll_quiet (hfail hstatus)
    refine ⟨Server.sendresponce child.status, [], Server.afterChild child s, ⟨c', es', true, child.status⟩,
      serve_failed hstatus, yields_finish _ hclient hes', rfl, ?_, fun _ => hstatus⟩
    show Agree c'.known s.mirror
    rw [hknown]
    exact hagree

end Request

/-- Between requests nothing is on the socket, and the client knows the arrays that the server
mirrors. -/
structure Session.Idle (s : Session) : Prop where
  up : s.up = []
  down : s.down = []
  agree : Agree s.known s.server.mirror

section Run
variable {decode : List UInt8 → Option BhirMsg} {s : Session} {r : Request}

/-- The two sides when the child has executed the batch. -/
theorem ready_afterChild {m : Mirror} {s₁ : Server} (hagree : Agree s.known s.server.mirror) (hl : Legal decode s r)
    (hc : Clean s r) (hstatus : r.child.status = bhSuccess) (hm : s₁.mirror = m)
    (hagree₁ : Agree (announce s.known r.batch).1 m)
    (hkeep : ∀ id slot, s.server.mirror.toSlot id = some slot →
      m.toSlot id = some slot ∧ m.header slot = s.server.mirror.header slot)
    (hnew : ∀ d ∈ (announce s.known r.batch).2, ∃ slot, m.toSlot d.id = some slot ∧ m.header slot = d.ary) :
    Ready r.client r.server m ⟨(announce s.known r.batch).1, r.data⟩ (Server.afterChild r.child s₁) r.batch := by
  subst hm
  obtain ⟨hpacked, hbases, hary⟩ := announce_spec s.known r.batch
  -- what the child left is found by the address of an array
  have hdata : ∀ id slot, s₁.mirror.toSlot id = some slot → (Server.afterChild r.child s₁).data slot = r.child.data id := by
    intro id slot hs
    show (match s₁.mirror.toRemote slot with | some id => r.child.data id | none => s₁.data slot) = _
    rw [(hagree₁.valid.inverse id slot).mp hs]
  have hmem : ∀ i ∈ r.batch, bhOperands i.opcode = 1 → ∀ b, i.operand0.base = some b → b ∈ basesOf r.batch := by
    intro i hi hone b hb
    refine List.mem_flatMap.mpr ⟨i, hi, ?_⟩
    rw [operands_eq_singleton hone]
    simp [hb]
  refine ⟨hagree₁, hl.batch, fun b hb => ?_, fun i hi his => ?_, hc.freed hstatus, fun i hi hif b hb slot hs hd => ?_⟩
  · obtain ⟨slot, hslot⟩ := Option.isSome_iff_exists.mp ((hagree₁.keys b.addr).mp (hbases b hb))
    exact ⟨slot, hslot, hslot⟩
  · obtain ⟨b, hb⟩ := Option.isSome_iff_exists.mp (hl.names i hi his)
    have hbmem := hmem i hi (by rw [his]; rfl) b hb
    obtain ⟨hpos, hchild, hmalloc, hsize⟩ := hc.sync hstatus i hi his b hb
    refine ⟨b, hb, hpos, hl.sizes b hbmem, hmalloc, fun slot hs => ⟨?_, ?_⟩⟩
    · -- the array was known, or it is new
      cases hold : s.server.mirror.toSlot b.addr with
      | some slot' =>
        obtain ⟨hs', hheader⟩ := hkeep b.addr slot' hold
        obtain rfl := Option.some.inj (hs.symm.trans hs')
        show bhBaseSize (s₁.mirror.header slot) = _
        rw [hheader]
        exact hsize slot hold
      | none =>
        have hin : b.addr ∈ (announce s.known r.batch).2.map NewArray.id := by
          rcases (hpacked.known b.addr).mp (hbases b hbmem) with hk | hk
          · rw [hagree.keys, hold] at hk
            cases hk
          · exact hk
        obtain ⟨d, hd, hid⟩ := List.mem_map.mp hin
        obtain ⟨slot', hs', hheader⟩ := hnew d hd
        rw [hid] at hs'
        obtain rfl := Option.some.inj (hs.symm.trans hs')
        have hsame : d.ary = b := by
          apply hl.struct d.ary (hary d hd) b hbmem
          rw [← hpacked.addr d hd, hid]
        show bhBaseSize (s₁.mirror.header slot) = _
        rw [hheader, hsame]
    · rw [hdata b.addr slot hs]
      exact hchild
  · rw [hdata b.addr slot hs] at hd
    exact hc.free hstatus i hi hif b hb hd

/-- The server gets the batch and the new arrays, and mirrors them. It is left what the two sides do from
the execution of the batch on. -/
theorem runs_request (hs : s.Idle) (hl : Legal decode s r)
    (hnew : ∀ d ∈ (announce s.known r.batch).2, (r.data d.id).isSome →
      0 < d.ary.nelem * bhTypeSize d.ary.type ∧ r.server.mallocFails d.id = false) :
    ∃ s₁ : Server, Agree (announce s.known r.batch).1 s₁.mirror ∧
      (∀ id slot, s.server.mirror.toSlot id = some slot →
        s₁.mirror.toSlot id = some slot ∧ s₁.mirror.header slot = s.server.mirror.header slot) ∧
      (∀ d ∈ (announce s.known r.batch).2, ∃ slot, s₁.mirror.toSlot d.id = some slot ∧ s₁.mirror.header slot = d.ary) ∧
      ∀ out es s' reply, (Server.serve r.server r.child (r.batch.map (localInstr s₁.mirror)) s₁).Yields [] out (es, s') →
        (Client.finish r.client r.batch ⟨(announce s.known r.batch).1, r.data⟩).Yields out [] reply →
        Net.Runs (s.net decode r) ⟨.ret reply, .ret (es, s'), [], []⟩ := by
  obtain ⟨hpacked, hbases, hary⟩ := announce_spec s.known r.batch
  obtain ⟨m, hinsert, hvalid, hkeys, hkeep, hheaders⟩ := foldlM_insert hs.agree.valid hpacked.nodup fun d hd => by
    have hnot := hpacked.fresh d hd
    rw [hs.agree.keys, Option.not_isSome_iff_eq_none] at hnot
    exact hnot
  have hagree : Agree (announce s.known r.batch).1 m := by
    refine ⟨fun id => ?_, hvalid⟩
    rw [hkeys, ← hs.agree.keys]
    exact hpacked.known id
  obtain ⟨arys, harys⟩ : ∃ arys, arys = Client.arrayHeaders ⟨s.known, r.data⟩ r.batch := ⟨_, rfl⟩
  have hmem : ∀ a ∈ arys.reverse, a.toNewArray ∈ (announce s.known r.batch).2 ∧ a.hasData = (r.data a.id).isSome := by
    intro a ha
    rw [List.mem_reverse, harys] at ha
    obtain ⟨d, hd, rfl⟩ := List.mem_map.mp ha
    exact ⟨hd, rfl⟩
  have hreceived : ∃ s₁, (arys.reverse.foldlM (Server.receiveArray r.server) (⟨m, s.server.data⟩ : Server)).Yields
      (arys.reverse.flatMap fun a => Client.arrayPacket r.data a.toNewArray) [] s₁ ∧ s₁.mirror = m := by
    apply yields_receiveArrays hvalid
    · exact fun a ha => hheaders a.toNewArray (hmem a ha).1
    · exact fun a ha => (hmem a ha).2
    · intro a ha hd
      obtain ⟨hpos, hmalloc⟩ := hnew _ (hmem a ha).1 hd
      exact ⟨hpos, hl.sizes _ (hary _ (hmem a ha).1), hmalloc⟩
  obtain ⟨s₁, harrays, hmirror⟩ := hreceived
  subst hmirror
  refine ⟨s₁, hagree, hkeep, hheaders, fun out es s' reply hserve hfinish => ?_⟩
  -- the request
  have hpackage : (Client.package r.payload ⟨s.known, r.data⟩ r.batch).Yields []
      (sendPacket ⟨PacketProtocol.execute.code, BitVec.ofNat 64 r.payload.length, 0⟩ (some r.payload) ++
        (Client.sendArrayData r.data (announce s.known r.batch).2 ++ []))
      ⟨(announce s.known r.batch).1, r.data⟩ :=
    Proc.yields_send _ (Proc.yields_send _ (Proc.yields_ret _))
  rw [List.append_nil] at hpackage
  have hdata : (arys.reverse.flatMap fun a => Client.arrayPacket r.data a.toNewArray) =
      Client.sendArrayData r.data (announce s.known r.batch).2 := by
    rw [harys, Client.arrayHeaders, ← List.map_reverse, List.flatMap_map]
    rfl
  -- the server
  have hsize : (BitVec.ofNat 64 r.payload.length).toNat = r.payload.length := by
    rw [BitVec.toNat_ofNat]
    have := hl.payload.2
    omega
  have hsocket : (s.server.handleSocket decode r.server r.child).Yields
      (sendPacket ⟨PacketProtocol.execute.code, BitVec.ofNat 64 r.payload.length, 0⟩ (some r.payload) ++
        Client.sendArrayData r.data (announce s.known r.batch).2) out (es, s') := by
    apply (yields_receivePacket (code_lt .execute) hsize hl.payload.1 hl.payload.2).bind
    dsimp only
    rw [if_pos rfl, hl.decodes, ← harys]
    have hfold : arys.foldlM (fun m a => m.insert a.toNewArray) s.server.mirror = some s₁.mirror := by
      rw [harys, Client.arrayHeaders, List.foldlM_map]
      exact hinsert
    show (Server.handleCommand _ _ _ _).Yields _ _ _
    rw [Server.handleCommand]
    dsimp only
    rw [hfold, ← hdata, ← List.append_nil (List.flatMap _ _)]
    apply harrays.bind
    rw [mapM_convertInstr fun b hb => (hagree.keys b.addr).mp (hbases b hb)]
    exact hserve
  have hexchange := Net.runs_exchange hpackage hsocket hfinish
  rw [Session.net, hs.up, hs.down]
  exact hexchange

/-- A clean request leaves the two sides in step. -/
theorem request_inStep (hs : s.Idle) (hl : Legal decode s r) (hc : Clean s r) :
    ∃ reply es server, Net.Runs (s.net decode r) ⟨.ret reply, .ret (es, server), [], []⟩ ∧ reply.responded = true ∧
      InStep reply es server [] [] ∧ Agree reply.client.known server.mirror := by
  obtain ⟨s₁, hagree, hkeep, hnew, hruns⟩ := runs_request hs hl hc.new
  obtain ⟨out, es, server, reply, hserve, hfinish, hresponded, hagree', hreported⟩ :=
    serve_finish hagree hc.child fun hstatus => ready_afterChild hs.agree hl hc hstatus rfl hagree hkeep hnew
  exact ⟨reply, es, server, hruns _ _ _ _ hserve hfinish, hresponded, ⟨⟨rfl, rfl⟩, hagree'.keys, hreported⟩, hagree'⟩

end Run

/-! ## Sessions -/

/-- The sessions after clean requests, with any order of steps in each of them. -/
inductive Session.Reachable (decode : List UInt8 → Option BhirMsg) : Session → Prop
  | start : Reachable decode Session.start
  | request {s : Session} {r : Request} {reply : Client.Reply} {es : List (BitVec 64)} {server : Server}
      {up down : List UInt8} (h : Reachable decode s) (hl : Legal decode s r) (hc : Clean s r)
      (hrun : Net.Runs (s.net decode r) ⟨.ret reply, .ret (es, server), up, down⟩) :
      Reachable decode ⟨reply.client.known, server, up, down⟩

theorem idle_start : Session.start.Idle := ⟨rfl, rfl, ⟨by simp [Session.start, Mirror.empty], Mirror.valid_empty⟩⟩

theorem Session.Reachable.idle {decode : List UInt8 → Option BhirMsg} {s : Session} (h : s.Reachable decode) : s.Idle := by
  induction h with
  | start => exact idle_start
  | request _ hl hc hrun ih =>
    obtain ⟨reply, es, server, hend, _, _, hagree⟩ := request_inStep ih hl hc
    obtain ⟨rfl, heq, rfl, rfl⟩ := hrun.unique hend
    cases heq
    exact ⟨rfl, rfl, hagree⟩

/-- After any clean requests, a clean request ends in one way whatever the order of steps: the client has
its response, and the two sides are in step. -/
theorem client_server_in_step (decode : List UInt8 → Option BhirMsg) (s : Session) (r : Request)
    (h : s.Reachable decode) (hl : Legal decode s r) (hc : Clean s r) :
    ∃ reply es server, (∀ n, Net.Runs (s.net decode r) n → Net.Runs n ⟨.ret reply, .ret (es, server), [], []⟩) ∧
      reply.responded = true ∧ InStep reply es server [] [] := by
  obtain ⟨reply, es, server, hend, hresponded, hin, _⟩ := request_inStep h.idle hl hc
  exact ⟨reply, es, server, fun n hn => hend.complete hn, hresponded, hin⟩

/-- An array with data is copied to a new one, which is synchronised; the first one is discarded. -/
def copyAndSync : Request :=
  let a : BhView := ⟨some ⟨0, .int64, 4⟩, 0, [⟨4, 1⟩]⟩
  let b : BhView := ⟨some ⟨1, .int64, 4⟩, 0, [⟨4, 1⟩]⟩
  { batch := [⟨.identity, b, a, a, .int .int64 0⟩, ⟨.sync, b, b, b, .int .int64 0⟩, ⟨.free, a, a, a, .int .int64 0⟩,
      ⟨.discard, a, a, a, .int .int64 0⟩]
    payload := [0]
    data := fun id => if id = 0 then some fun _ => 7 else none
    client := ⟨fun _ => false, fun _ => false⟩
    server := ⟨fun _ => false, fun _ => false⟩
    child := ⟨bhSuccess, fun _ => some fun _ => 7⟩ }

def discardInstr : BhInstruction :=
  let a : BhView := ⟨some ⟨0, .int64, 4⟩, 0, [⟨4, 1⟩]⟩
  ⟨.discard, a, a, a, .int .int64 0⟩

/-- The batch discards an array, and the child fails. -/
def discardAndFail : Request :=
  { batch := [discardInstr]
    payload := [0]
    data := fun _ => none
    client := ⟨fun _ => false, fun _ => false⟩
    server := ⟨fun _ => false, fun _ => false⟩
    child := ⟨bhError, fun _ => none⟩ }

/-- The packet of a first request decodes. -/
def decodeFirst (r : Request) : List UInt8 → Option BhirMsg := fun _ =>
  some ⟨r.batch, Client.arrayHeaders ⟨∅, r.data⟩ r.batch⟩

theorem legal_copyAndSync : Legal (decodeFirst copyAndSync) Session.start copyAndSync where
  batch := ⟨by decide, by simp [copyAndSync]⟩
  names := by decide
  struct := by decide
  sizes := by decide
  payload := by decide
  decodes := rfl

theorem clean_copyAndSync : Clean Session.start copyAndSync where
  child := fun h => absurd rfl h
  new := by decide
  sync := by
    intro _ i hi his b hb
    have hpos : ∀ i ∈ copyAndSync.batch, ∀ b ∈ i.operand0.base, 0 < b.nelem * bhTypeSize b.type := by decide
    exact ⟨hpos i hi b hb, rfl, Or.inr rfl, nofun⟩
  freed := fun _ => by simp [copyAndSync]
  free := fun _ _ _ _ _ _ _ => rfl

theorem client_server_in_step_copyAndSync : ∃ reply es server,
    Net.Runs (Session.start.net (decodeFirst copyAndSync) copyAndSync) ⟨.ret reply, .ret (es, server), [], []⟩ ∧
      reply.responded = true ∧ InStep reply es server [] [] := by
  obtain ⟨reply, es, server, hall, hresponded, hin⟩ := client_server_in_step (decodeFirst copyAndSync) Session.start
    copyAndSync Session.Reachable.start legal_copyAndSync clean_copyAndSync
  exact ⟨reply, es, server, hall _ Relation.ReflTransGen.refl, hresponded, hin⟩

theorem client_inspectAll_discard {cm : Machine} {c : Client} {i : BhInstruction} {b : BhBase} (hi : i.opcode = .discard)
    (hb : i.operand0.base = some b) :
    (inspectAll (Client.inspect cm) [i] c).Yields [] [] ([bhSuccess], { c with known := c.known.erase b.addr }) := by
  have hone : (Client.inspect cm c i).Yields [] [] (bhSuccess, { c with known := c.known.erase b.addr }) := by
    rw [Client.inspect, hi, hb]
    exact Proc.yields_ret _
  exact yields_inspectAll_cons hone (Proc.yields_ret _)

theorem legal_discardAndFail : Legal (decodeFirst discardAndFail) Session.start discardAndFail where
  batch := ⟨by decide, List.pairwise_singleton _ _⟩
  names := by decide
  struct := by decide
  sizes := by decide
  payload := by decide
  decodes := rfl

/-- The client forgets the array, and the server keeps it. -/
theorem not_inStep_discardAndFail : ¬ ∀ reply es server up down,
    Net.Runs (Session.start.net (decodeFirst discardAndFail) discardAndFail) ⟨.ret reply, .ret (es, server), up, down⟩ →
      reply.responded = true → InStep reply es server up down := by
  intro h
  obtain ⟨s₁, hagree, _, _, hruns⟩ := runs_request idle_start legal_discardAndFail (by simp [discardAndFail])
  have hclient : (inspectAll (Client.inspect discardAndFail.client) discardAndFail.batch
      ⟨(announce Session.start.known discardAndFail.batch).1, discardAndFail.data⟩).Yields [] [] ([bhSuccess],
        ⟨(announce Session.start.known discardAndFail.batch).1.erase 0, discardAndFail.data⟩) :=
    client_inspectAll_discard (i := discardInstr) (b := ⟨0, .int64, 4⟩) rfl rfl
  have hfinish := yields_finish discardAndFail.child.status hclient (by simp)
  rw [List.nil_append] at hfinish
  have hend := hruns _ _ _ _ (serve_failed (by decide)) hfinish
  have hknown := (h _ _ _ _ _ hend rfl).known 0
  have hserver : (s₁.mirror.toSlot 0).isSome := (hagree.keys 0).mp (by decide)
  exact absurd (hknown.mpr hserver) (Finset.notMem_erase 0 _)

end Bohrium.Proxy
