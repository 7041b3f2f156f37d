import Bohrium.Core.Wire

/-! # Packets of the proxy

`vem/proxy/BasicPacket.cpp`, the message buffer of the client (`ArrayManagement.cpp`) and how the server
takes an `EXECUTE` packet apart (`PacketManagment.cpp`). The socket is a list of bytes; a receive that
waits for more bytes than there are is `none`, and so is a read behind the end of the server's buffer.
A packet header has 24 bytes, four of them padding. -/
namespace Bohrium.Proxy
open Bytes
set_option autoImplicit false

/-! ## Packets -/

inductive PacketProtocol
  | unknown | clientHandshake | serverHandshake | init | shutdown | extmethod | execute | array | sync
  deriving DecidableEq, Repr

/-- The value of the enumerator. -/
def PacketProtocol.code (ptc : PacketProtocol) : ℕ := ptc.ctorIdx

structure PacketHeader where
  packetID : ℕ
  packetSize : BitVec 64
  key : BitVec 64
  deriving DecidableEq, Repr

def PacketHeader.bytes (h : PacketHeader) : List UInt8 :=
  Bytes.ofNat 4 h.packetID ++ Bytes.ofNat 4 0 ++ wordBytes h.packetSize ++ wordBytes h.key

def PacketHeader.ofBytes (bs : List UInt8) : PacketHeader :=
  ⟨Bytes.toNat (bs.take 4), wordOf ((bs.drop 8).take 8), wordOf ((bs.drop 16).take 8)⟩

/-- `SendPacket`: the header and then the data, of which nothing is sent if its pointer is `NULL`. -/
def sendPacket (h : PacketHeader) (data : Option (List UInt8)) : List UInt8 := h.bytes ++ data.getD []

/-- `receiveall` on a stream that stays open: nothing is received for a size of zero, which counts as a
closed socket. -/
def receiveall (n : ℕ) (stream : List UInt8) : Option (List UInt8 × List UInt8) :=
  (read stream 0 n).map fun d => (d, stream.drop n)

/-- `ReceivePacket` with a dynamic buffer: the header, the buffer afterwards, and what is left in the
stream. -/
def receivePacket (junk : ℕ → UInt8) (data stream : List UInt8) :
    Option (PacketHeader × List UInt8 × List UInt8) := do
  let (header, stream) ← receiveall 24 stream
  let h := PacketHeader.ofBytes header
  if h.packetSize = 0 then some (h, data, stream)
  else if h.packetSize.msb then none
  else
    let n := h.packetSize.toNat
    let data := data ++ (List.range (n - data.length)).map fun k => junk (data.length + k)
    let (payload, stream) ← receiveall n stream
    some (h, write data 0 payload, stream)

/-! ## The client packs an `EXECUTE` packet -/

/-- How `ArrayMan_reserve_payload` grows `buf_size`, which is an `int`. -/
def growPacket (size need : ℕ) : Option ℕ :=
  if size < need then
    if 2 * (size + 256) < 2147483648 then growPacket (2 * (size + 256)) need else none
  else some size
termination_by need - size
decreasing_by omega

/-- The payload that `ArrayMan_client_bh_ir_package` builds after `ArrayMan_reset_msg`. -/
def packageBhir (junk : ℕ → UInt8) (b : Buffer) (bhir : List UInt8) (darys : List ArrayWords) : Option Buffer := do
  let b ← Buffer.add growPacket junk bhir { b with used := 0 }
  let b' ← b.reserve growPacket junk 8
  let b' ← darys.foldlM (fun b a => b.add growPacket junk a.bytes) b'
  -- the number of new arrays is saved in the place reserved for it
  some { b' with bytes := write b'.bytes b.used (wordBytes (BitVec.ofNat 64 darys.length)) }

/-- The bytes that the client sends for it. -/
def executePacket (b : Buffer) (key : BitVec 64) : List UInt8 :=
  sendPacket ⟨PacketProtocol.execute.code, BitVec.ofNat 64 b.used, key⟩ (some (b.bytes.take b.used))

/-! ## The server takes it apart -/

/-- What `HandleCommand` finds in the packet buffer. -/
structure Unpacked where
  bhir : List UInt8
  noa : BitVec 64
  arys : List ArrayWords
  deriving DecidableEq

/-- `HandleCommand` up to the list of array headers: the whole packet is taken for the BhIR, and the
number of arrays is looked for behind it. -/
def handleExecute (data : List UInt8) (packetSize : ℕ) : Option Unpacked := do
  let bhir ← read data 0 packetSize
  let noa ← read data packetSize 8
  let arys ← (List.range (wordOf noa).toNat).mapM fun k => read data (packetSize + 8 + 32 * k) 32
  some ⟨bhir, wordOf noa, arys.map ArrayWords.ofBytes⟩

/-- The ranges of bytes that it reads, each an offset and a length. -/
def executeReads (data : List UInt8) (packetSize : ℕ) : List (ℕ × ℕ) :=
  (0, packetSize) :: (packetSize, 8) ::
    ((read data packetSize 8).map fun noa =>
      (List.range (wordOf noa).toNat).map fun k => (packetSize + 8 + 32 * k, 32)).getD []

/-- The server recovers what the client packed, from bytes of the packet only. -/
structure Recovers (bhir : List UInt8) (darys : List ArrayWords) (data : List UInt8) (packetSize : ℕ) : Prop where
  bhir : ∃ u, handleExecute data packetSize = some u ∧ u.bhir = bhir
  arrays : ∃ u, handleExecute data packetSize = some u ∧ u.noa = BitVec.ofNat 64 darys.length ∧ u.arys = darys
  inside : ∀ r ∈ executeReads data packetSize, r.1 + r.2 ≤ packetSize

/-! ## Growing -/

theorem sound_growPacket : Sound growPacket := by
  intro size need
  induction size using growPacket.induct need with
  | case1 size hlt hfit ih =>
    intro size' h
    rw [growPacket, if_pos hlt, if_pos hfit] at h
    obtain ⟨hkeep, hroom⟩ := ih size' h
    omega
  | case2 size hlt hfit =>
    intro size' h
    rw [growPacket, if_pos hlt, if_neg hfit] at h
    cases h
  | case3 size hle =>
    intro size' h
    rw [growPacket, if_neg hle] at h
    obtain rfl := Option.some.inj h
    omega

theorem growPacket_lt {size need size' : ℕ} (hsize : size < 2147483648) (h : growPacket size need = some size') :
    size' < 2147483648 := by
  induction size using growPacket.induct need with
  | case1 size hlt hfit ih =>
    rw [growPacket, if_pos hlt, if_pos hfit] at h
    exact ih hfit h
  | case2 size hlt hfit =>
    rw [growPacket, if_pos hlt, if_neg hfit] at h
    cases h
  | case3 size hle =>
    rw [growPacket, if_neg hle] at h
    obtain rfl := Option.some.inj h
    exact hsize

/-! ## What is packed -/

section Package
variable {junk : ℕ → UInt8} {b b' : Buffer} {bhir : List UInt8} {darys : List ArrayWords}

theorem reserve_lt {n : ℕ} (hb : b.bytes.length < 2147483648) (h : b.reserve growPacket junk n = some b') :
    b'.bytes.length < 2147483648 := by
  unfold Buffer.reserve at h
  obtain ⟨size, hsize, rfl⟩ := Option.map_eq_some_iff.mp h
  have hkeep := (sound_growPacket _ _ _ hsize).1
  have hlt := growPacket_lt hb hsize
  rw [List.length_append, List.length_map, List.length_range]
  omega

theorem add_lt {d w : List UInt8} (hb : b.bytes.length < 2147483648) (hw : b.Holds w)
    (h : b.add growPacket junk d = some b') : b'.bytes.length < 2147483648 := by
  have hholds := hw.add sound_growPacket h
  unfold Buffer.add at h
  obtain ⟨c, hc, rfl⟩ := Option.map_eq_some_iff.mp h
  have hlt := reserve_lt hb hc
  obtain ⟨u, hu, hused, rest, hbytes⟩ := hw.reserve sound_growPacket hc
  show (write c.bytes b.used d).length < _
  rw [hbytes, write_append hw.1 hu.symm]
  rw [hbytes] at hlt
  simpa [hu] using hlt

theorem foldlM_add {w : List UInt8} (hb : b.bytes.length < 2147483648) (hw : b.Holds w)
    (h : darys.foldlM (fun b a => b.add growPacket junk a.bytes) b = some b') :
    b'.Holds (w ++ darys.flatMap ArrayWords.bytes) ∧ b'.bytes.length < 2147483648 := by
  induction darys generalizing b w with
  | nil =>
    obtain rfl := Option.some.inj h
    rw [List.flatMap_nil, List.append_nil]
    exact ⟨hw, hb⟩
  | cons a ds ih =>
    rw [List.foldlM_cons] at h
    obtain ⟨c, hc, hrest⟩ := Option.bind_eq_some_iff.mp h
    obtain ⟨hall, hlt⟩ := ih (add_lt hb hw hc) (hw.add sound_growPacket hc) hrest
    rw [List.flatMap_cons, ← List.append_assoc]
    exact ⟨hall, hlt⟩

/-- The three sections that the client packs. -/
theorem packageBhir_holds (hb : b.bytes.length < 2147483648) (h : packageBhir junk b bhir darys = some b') :
    b'.Holds (bhir ++ wordBytes (BitVec.ofNat 64 darys.length) ++ darys.flatMap ArrayWords.bytes) ∧
      b'.used < 2147483648 := by
  simp only [packageBhir, Option.bind_eq_bind] at h
  obtain ⟨c, hc, h⟩ := Option.bind_eq_some_iff.mp h
  obtain ⟨c₂, hc₂, h⟩ := Option.bind_eq_some_iff.mp h
  obtain ⟨c₃, hc₃, h⟩ := Option.bind_eq_some_iff.mp h
  obtain rfl := Option.some.inj h
  have hstart : Buffer.Holds { b with used := 0 } [] := ⟨rfl, b.bytes, rfl⟩
  have hcw := hstart.add sound_growPacket hc
  rw [List.nil_append] at hcw
  have hclt := add_lt (b := { b with used := 0 }) hb hstart hc
  obtain ⟨u, hu, hc₂w⟩ := hcw.reserve sound_growPacket hc₂
  obtain ⟨hc₃w, hlt⟩ := foldlM_add (reserve_lt hclt hc₂) hc₂w hc₃
  have hpatched := hc₃w.write (show (wordBytes (BitVec.ofNat 64 darys.length)).length = u.length by simp [hu])
  rw [← hcw.1] at hpatched
  refine ⟨hpatched, ?_⟩
  obtain ⟨hused, rest, hbytes⟩ := hc₃w
  have hle : c₃.used ≤ c₃.bytes.length := by
    rw [hused, hbytes]
    exact (List.prefix_append _ rest).length_le
  exact Nat.lt_of_le_of_lt hle hlt

end Package

/-! ## What the server makes of it -/

theorem PacketHeader.length_bytes (h : PacketHeader) : h.bytes.length = 24 := by simp [PacketHeader.bytes]

theorem PacketHeader.ofBytes_bytes {h : PacketHeader} (hid : h.packetID < 256 ^ 4) :
    PacketHeader.ofBytes h.bytes = h := by
  have hp : h.bytes.take 4 = Bytes.ofNat 4 h.packetID := by
    rw [PacketHeader.bytes, List.append_assoc, List.append_assoc]
    exact List.take_left' (by simp)
  have hs : (h.bytes.drop 8).take 8 = wordBytes h.packetSize := by
    rw [PacketHeader.bytes, List.append_assoc, List.drop_left' (by simp)]
    exact List.take_left' (by simp)
  have hk : (h.bytes.drop 16).take 8 = wordBytes h.key := by
    rw [PacketHeader.bytes, List.drop_left' (by simp)]
    exact List.take_of_length_le (by simp)
  rw [PacketHeader.ofBytes, hp, hs, hk, toNat_ofNat_of_lt hid, wordOf_wordBytes, wordOf_wordBytes]

theorem receiveall_append {d rest : List UInt8} {n : ℕ} (hn : n = d.length) :
    receiveall n (d ++ rest) = some (d, rest) := by
  have hread : Bytes.read (d ++ rest) 0 n = some d := read_append (w := []) rfl hn
  rw [receiveall, hread, Option.map_some, hn, List.drop_left]

theorem length_of_read {l d : List UInt8} {off n : ℕ} (h : Bytes.read l off n = some d) : d.length = n := by
  unfold Bytes.read at h
  split_ifs at h with hle
  obtain rfl := Option.some.inj h
  rw [List.length_take, List.length_drop]
  omega

/-- What is taken for the BhIR is as long as the packet. -/
theorem length_bhir_handleExecute {data : List UInt8} {n : ℕ} {u : Unpacked} (h : handleExecute data n = some u) :
    u.bhir.length = n := by
  simp only [handleExecute, Option.bind_eq_bind] at h
  obtain ⟨bhir, hbhir, h⟩ := Option.bind_eq_some_iff.mp h
  obtain ⟨noa, _, h⟩ := Option.bind_eq_some_iff.mp h
  obtain ⟨arys, _, h⟩ := Option.bind_eq_some_iff.mp h
  obtain rfl := Option.some.inj h
  exact length_of_read hbhir

theorem not_inside (data : List UInt8) (n : ℕ) : ¬ ∀ r ∈ executeReads data n, r.1 + r.2 ≤ n := by
  intro h
  have hnoa := h (n, 8) (List.mem_cons_of_mem _ List.mem_cons_self)
  dsimp only at hnoa
  omega

/-- Whatever is packed, the server does not recover it: it takes the two later sections for a part of
the BhIR and reads the number of arrays behind the packet. -/
theorem not_recovers (junk junk' : ℕ → UInt8) (b b' : Buffer) (bhir : List UInt8) (darys : List ArrayWords)
    (key : BitVec 64) (data more : List UInt8) (hb : b.bytes.length < 2147483648)
    (hpack : packageBhir junk b bhir darys = some b') :
    ∃ h data', receivePacket junk' data (executePacket b' key ++ more) = some (h, data', more) ∧
      (∀ u, handleExecute data' h.packetSize.toNat = some u → u.bhir ≠ bhir) ∧
      (¬ ∀ r ∈ executeReads data' h.packetSize.toNat, r.1 + r.2 ≤ h.packetSize.toNat) ∧
      ¬ Recovers bhir darys data' h.packetSize.toNat := by
  obtain ⟨⟨hused, rest, hbytes⟩, hlt⟩ := packageBhir_holds hb hpack
  have hlen : bhir.length < b'.used := by
    rw [hused, List.length_append, List.length_append, length_wordBytes]
    omega
  obtain ⟨h, hh⟩ : ∃ h : PacketHeader, h = ⟨PacketProtocol.execute.code, BitVec.ofNat 64 b'.used, key⟩ := ⟨_, rfl⟩
  have hsize : h.packetSize.toNat = b'.used := by
    rw [hh, BitVec.toNat_ofNat, Nat.mod_eq_of_lt (by omega)]
  have hbhir : ∀ data' u, handleExecute data' h.packetSize.toNat = some u → u.bhir ≠ bhir := by
    intro data' u hu heq
    have hulen := length_bhir_handleExecute hu
    rw [heq, hsize] at hulen
    omega
  -- the packet arrives
  have hreceive : ∃ data', receivePacket junk' data (executePacket b' key ++ more) = some (h, data', more) := by
    have hid : h.packetID < 256 ^ 4 := by
      rw [hh]
      show PacketProtocol.execute.code < 256 ^ 4
      decide
    have hne : h.packetSize ≠ 0 := by
      intro h0
      rw [h0] at hsize
      simp at hsize
      omega
    have hmsb : h.packetSize.msb = false := by
      rw [BitVec.msb_eq_false_iff_two_mul_lt, hsize]
      omega
    have htake : (b'.bytes.take b'.used).length = b'.used := by
      rw [List.length_take_of_le]
      rw [hused, hbytes]
      exact (List.prefix_append _ rest).length_le
    have hstream : executePacket b' key ++ more = h.bytes ++ (b'.bytes.take b'.used ++ more) := by
      rw [executePacket, ← hh, sendPacket, Option.getD_some, List.append_assoc]
    rw [hstream]
    simp only [receivePacket, receiveall_append h.length_bytes.symm, Option.bind_eq_bind, Option.bind_some,
      PacketHeader.ofBytes_bytes hid, if_neg hne, hmsb, Bool.false_eq_true, if_false, hsize,
      receiveall_append htake.symm]
    exact ⟨_, rfl⟩
  obtain ⟨data', hdata'⟩ := hreceive
  refine ⟨h, data', hdata', hbhir data', not_inside data' _, fun hrec => not_inside data' _ hrec.inside⟩

theorem growPacket_small : growPacket 0 3 = some 512 ∧ growPacket 512 11 = some 512 := by
  refine ⟨?_, ?_⟩
  · rw [growPacket, if_pos (by decide), if_pos (by decide), growPacket, if_neg (by decide)]
  · rw [growPacket, if_neg (by decide)]

/-- A batch of three bytes without new arrays. -/
theorem not_recovers_threeBytes : ∃ b', packageBhir (fun _ => 0) ⟨[], 0⟩ [1, 2, 3] [] = some b' ∧
    ∃ h data', receivePacket (fun _ => 0) [] (executePacket b' 0) = some (h, data', []) ∧
      ¬ Recovers [1, 2, 3] [] data' h.packetSize.toNat := by
  have hpack : ∃ b', packageBhir (fun _ => 0) ⟨[], 0⟩ [1, 2, 3] [] = some b' := by
    have hres : ∃ c, Buffer.reserve growPacket (fun _ => 0) 3 ⟨[], 0⟩ = some c ∧ c.used = 3 ∧ c.bytes.length = 512 := by
      refine ⟨_, by rw [Buffer.reserve]; simp only [List.length_nil, Nat.zero_add, growPacket_small.1]; rfl, rfl, ?_⟩
      dsimp only
      rw [List.nil_append, List.length_map, List.length_range]
    obtain ⟨c, hc, hused, hlen⟩ := hres
    have hadd : Buffer.add growPacket (fun _ => 0) [1, 2, 3] ⟨[], 0⟩ = some { c with bytes := write c.bytes 0 [1, 2, 3] } := by
      rw [Buffer.add]
      exact congrArg (Option.map _) hc
    have hwrite : (write c.bytes 0 [1, 2, 3]).length = 512 := by
      rw [length_write (by rw [hlen]; decide), hlen]
    simp only [packageBhir, hadd, Option.bind_eq_bind, Option.bind_some, Buffer.reserve, hwrite, hused,
      growPacket_small.2, Option.map_some]
    exact ⟨_, rfl⟩
  obtain ⟨b', hb'⟩ := hpack
  obtain ⟨h, data', hreceive, _, _, hnot⟩ := not_recovers (fun _ => 0) (fun _ => 0) ⟨[], 0⟩ b' [1, 2, 3] [] 0 [] []
    (by decide) hb'
  rw [List.append_nil] at hreceive
  exact ⟨b', hb', h, data', hreceive, hnot⟩

theorem threeBytes_lost : ¬ ∃ b' h data' more, packageBhir (fun _ => 0) ⟨[], 0⟩ [1, 2, 3] [] = some b' ∧
    receivePacket (fun _ => 0) [] (executePacket b' 0) = some (h, data', more) ∧
      Recovers [1, 2, 3] [] data' h.packetSize.toNat :=
  fun ⟨_, _, data', _, _, _, hrec⟩ => not_inside data' _ hrec.inside

end Bohrium.Proxy
