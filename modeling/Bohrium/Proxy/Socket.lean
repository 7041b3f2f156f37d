import Bohrium.Library.Duplex
import Bohrium.Proxy.Packet

/-! # Packets on an open socket

`SendPacket`, `ReceivePacket` and `ReceiveArrayPacket` as parts of a process that is at one end of a
socket. A process that waits for bytes which do not come is stuck. The data of an array is the memory
behind its pointer, `none` the null pointer. -/
namespace Bohrium.Proxy.Socket
open Duplex
set_option autoImplicit false

inductive ServerError
  | success | recverr | socketClosed | protocolmismatch | arraykeymismatch | buffersizeErr
  deriving DecidableEq, Repr

/-- What is behind a data pointer. -/
abbrev Contents := ℕ → UInt8

/-- The first `n` bytes. -/
def Contents.bytes (d : Contents) (n : ℕ) : List UInt8 := (List.range n).map d

/-- Received bytes overwrite the first ones. -/
def Contents.store (d : Contents) (bs : List UInt8) : Contents := fun k => bs.getD k (d k)

/-- `receiveall`: a `recv` of no bytes returns zero, which counts as a closed socket. -/
def receiveall (n : ℕ) : Proc UInt8 (Option (List UInt8)) :=
  if n = 0 then pure none else .recv n fun d => pure (some d)

/-- `ReceivePacket` with a dynamic buffer: the header and the data that came with it. -/
def receivePacket : Proc UInt8 (Option (PacketHeader × List UInt8)) := do
  match ← receiveall 24 with
  | none => pure none
  | some bs =>
    let h := PacketHeader.ofBytes bs
    if h.packetSize = 0 then pure (some (h, []))
    else if h.packetSize.msb then pure none
    else do
      match ← receiveall h.packetSize.toNat with
      | none => pure none
      | some payload => pure (some (h, payload))

/-- `ReceiveArrayPacket`: the status, and the data afterwards. Without a buffer nothing is read, and
behind a header that does not match the data is left unread. -/
def receiveArrayPacket (data : Option Contents) (dataBufferSize : BitVec 64) (messageType : PacketProtocol)
    (keyVal : BitVec 64) : Proc UInt8 (ServerError × Option Contents) :=
  match data with
  | none => pure (.recverr, none)
  | some d => do
    match ← receiveall 24 with
    | none => pure (.socketClosed, some d)
    | some bs =>
      let h := PacketHeader.ofBytes bs
      if h.packetSize = dataBufferSize ∧ messageType.code = h.packetID ∧ h.key = keyVal then do
        match ← receiveall h.packetSize.toNat with
        | none => pure (.socketClosed, some d)
        | some payload => pure (.success, some (d.store payload))
      else if messageType.code ≠ h.packetID then pure (.protocolmismatch, some d)
      else if h.key ≠ keyVal then pure (.arraykeymismatch, some d)
      else if h.packetSize ≠ dataBufferSize then pure (.buffersizeErr, some d)
      else pure (.recverr, some d)

/-! ## What is sent is received -/

theorem Contents.length_bytes (d : Contents) (n : ℕ) : (d.bytes n).length = n := by
  rw [Contents.bytes, List.length_map, List.length_range]

theorem code_lt (ptc : PacketProtocol) : ptc.code < 256 ^ 4 := by
  cases ptc <;> decide

theorem yields_receiveall {d : List UInt8} {n : ℕ} (hn : n = d.length) (hpos : 0 < n) :
    (receiveall n).Yields d [] (some d) := by
  have h : (Proc.recv n fun d => pure (some d)).Yields (d ++ []) [] (some d) :=
    Proc.yields_recv hn.symm (Proc.yields_ret _)
  rw [List.append_nil] at h
  rw [receiveall, if_neg hpos.ne']
  exact h

section
variable {h : PacketHeader} {payload : List UInt8}

theorem yields_header (h : PacketHeader) : (receiveall 24).Yields h.bytes [] (some h.bytes) :=
  yields_receiveall h.length_bytes.symm (by decide)

/-- A packet with data arrives whole. -/
theorem yields_receivePacket (hid : h.packetID < 256 ^ 4) (hsize : h.packetSize.toNat = payload.length)
    (hpos : payload ≠ []) (hlt : payload.length < 2 ^ 63) :
    receivePacket.Yields (sendPacket h (some payload)) [] (some (h, payload)) := by
  have hlen : 0 < payload.length := List.length_pos_iff.mpr hpos
  have hne : h.packetSize ≠ 0 := by
    intro h0
    rw [h0] at hsize
    simp at hsize
    omega
  have hmsb : h.packetSize.msb = false := by
    rw [BitVec.msb_eq_false_iff_two_mul_lt, hsize]
    omega
  apply (yields_header h).bind
  dsimp only
  rw [PacketHeader.ofBytes_bytes hid, if_neg hne, if_neg (by rw [hmsb]; decide)]
  exact (yields_receiveall hsize (hsize ▸ hlen)).bind_eq_ret rfl

/-- An array packet that matches arrives whole. -/
theorem yields_receiveArrayPacket {messageType : PacketProtocol} {size key : BitVec 64} {d c : Contents}
    (hpos : 0 < size.toNat) :
    (receiveArrayPacket (some d) size messageType key).Yields
      (sendPacket ⟨messageType.code, size, key⟩ (some (c.bytes size.toNat))) []
      (.success, some (d.store (c.bytes size.toNat))) := by
  apply (yields_header _).bind
  dsimp only
  rw [PacketHeader.ofBytes_bytes (code_lt _), if_pos ⟨rfl, rfl, rfl⟩]
  exact (yields_receiveall (c.length_bytes size.toNat).symm hpos).bind_eq_ret rfl

end

end Bohrium.Proxy.Socket
