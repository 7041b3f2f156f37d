import Bohrium.Core.Wire
import Bohrium.Library.CInt
import Bohrium.Library.Fold
import Mathlib.Data.List.TakeWhile

/-! # Dispatch messages

The bytes of `vem/cluster/dispatch.cpp`: how the master packs a message and sends it as one or two
broadcasts, and how a slave receives and decodes it (`bh_vem_cluster_slave.cpp`). `bh_intp` and pointers
have eight bytes, `int` has four, the lowest byte first; a broadcast delivers the bytes that are sent.
A read of memory that is not mapped, an allocation of a negative size and a write behind the end of a
buffer are `none`. -/
namespace Bohrium.Cluster
open Bytes
set_option autoImplicit false

/-! ## What is sent -/

/-- A name: its bytes without the zero at the end. -/
structure CString where
  bytes : List UInt8
  noZero : 0 ∉ bytes
  deriving DecidableEq

/-- The messages that have a payload. -/
inductive Payload
  | init (name : CString)
  | extmethod (opcode : BitVec 64) (name : CString)
  | exec (bhir : List UInt8) (darys : List ArrayWords)
  deriving DecidableEq

/-- The dispatch message type. -/
def Payload.type : Payload → ℕ
  | .init _ => 0
  | .exec _ _ => 2
  | .extmethod _ _ => 3

def CString.terminated (s : CString) : List UInt8 := s.bytes ++ [0]

/-! ## The master -/

/-- How `dispatch_reserve_payload` grows the payload part of the message buffer. The size of the
buffer is an `int`; it counts the eight bytes of the header too. -/
def growMsg (size need : ℕ) : Option ℕ :=
  if size < need then
    let bufSize := CInt.toInt32 (2 * (need + 8))
    if bufSize < need + 8 then none else some (bufSize - 8).toNat
  else some size

section Master
variable (junk : ℕ → UInt8) (mem : ℕ → Option UInt8)

/-- `memcpy` from an address of the process. -/
def readMem (addr n : ℕ) : Option (List UInt8) := (List.range n).mapM fun k => mem (addr + k)

/-- `dispatch_add2payload`. -/
def add2payload (d : List UInt8) (b : Buffer) : Option Buffer := b.add growMsg junk d

/-- The payload that `bh_vem_cluster_init`, `bh_vem_cluster_extmethod` and `dispatch_bhir` build in the
message buffer after `dispatch_reset`. -/
def packPayload (b : Buffer) : Payload → Option Buffer
  | .init name => add2payload junk name.terminated b
  | .extmethod opcode name => do
    -- the opcode itself is passed as the address of the data
    let d ← readMem mem opcode.toNat 8
    let b ← add2payload junk d b
    add2payload junk name.terminated b
  | .exec bhir darys => do
    let b ← add2payload junk (wordBytes (BitVec.ofNat 64 bhir.length)) b
    let b ← add2payload junk bhir b
    let b' ← b.reserve growMsg junk 8
    let b' ← darys.foldlM (fun b a => add2payload junk a.bytes b) b'
    -- the number of new arrays is saved in the place reserved for it
    some { b' with bytes := write b'.bytes b.used (wordBytes (BitVec.ofNat 64 darys.length)) }

end Master

/-- The bytes of `dispatch_msg`. -/
def rawBytes (type : ℕ) (b : Buffer) : List UInt8 := Bytes.ofNat 4 type ++ Bytes.ofNat 4 b.used ++ b.bytes

/-- `BH_CLUSTER_DISPATCH_DEFAULT_MSG_SIZE`. -/
def defaultMsgSize : ℕ := 256

/-- `dispatch_send`: one broadcast, and another one for what is left. -/
def dispatchSend (type : ℕ) (b : Buffer) : List (List UInt8) :=
  let raw := rawBytes type b
  if defaultMsgSize < b.used + 8 then
    [raw.take defaultMsgSize, (raw.drop defaultMsgSize).take (b.used + 8 - defaultMsgSize)]
  else [raw.take defaultMsgSize]

/-! ## A slave -/

/-- `dispatch_recv` into the message buffer of the slave: the first broadcast says how long the second
one is. A broadcast of another length than expected is an error. -/
def dispatchRecv (junk : ℕ → UInt8) (raw : List UInt8) : List (List UInt8) → Option (List UInt8)
  | first :: rest =>
    if first.length = defaultMsgSize then
      let raw := write raw 0 first
      let size := 8 + Bytes.toNat ((raw.drop 4).take 4)
      let raw := raw ++ (List.range (size - raw.length)).map fun k => junk (raw.length + k)
      if defaultMsgSize < size then
        match rest with
        | [left] => if left.length = size - defaultMsgSize then some (write raw defaultMsgSize left) else none
        | _ => none
      else if rest = [] then some raw else none
    else none
  | [] => none

/-- The bytes up to a zero. -/
def readCString (l : List UInt8) : Option CString :=
  if 0 ∈ l then some ⟨l.takeWhile (· ≠ 0), fun h => by simpa using List.mem_takeWhile_imp h⟩ else none

/-- How the slave's `main` reads the payload. -/
def decodePayload (type : ℕ) (l : List UInt8) : Option Payload :=
  match type with
  | 0 => (readCString l).map Payload.init
  | 2 => do
    let size ← read l 0 8
    let n := (wordOf size).toNat
    let bhir ← read l 8 n
    let noa ← read l (8 + n) 8
    let darys ← (List.range (wordOf noa).toNat).mapM fun k => read l (8 + n + 8 + 32 * k) 32
    some (.exec bhir (darys.map ArrayWords.ofBytes))
  | 3 => do
    let opcode ← read l 0 8
    (readCString (l.drop 8)).map (Payload.extmethod (wordOf opcode))
  | _ => none

/-- From the master's payload to what a slave reads: `b` and `raw` are the message buffers of the two
before. -/
def roundTrip (mem : ℕ → Option UInt8) (junk junk' : ℕ → UInt8) (b : Buffer) (raw : List UInt8) (p : Payload) :
    Option Payload := do
  let b ← packPayload junk mem { b with used := 0 } p
  let msg ← dispatchRecv junk' raw (dispatchSend p.type b)
  decodePayload (Bytes.toNat (msg.take 4)) (msg.drop 8)

/-! ## Growing -/

theorem growMsg_eq (size need : ℕ) : growMsg size need =
    if size < need then if need + 8 < 2 ^ 30 then some (2 * (need + 8) - 8) else none else some size := by
  unfold growMsg
  split_ifs with hsize hneed
  · have hfits : CInt.toInt32 (2 * (need + 8)) = 2 * (need + 8) := CInt.toInt32_of_fits ⟨by omega, by omega⟩
    dsimp only
    rw [hfits, if_neg (by omega)]
    refine congrArg some ?_
    omega
  · -- the doubled size does not fit an `int`
    have hlt : CInt.toInt32 (2 * (need + 8)) < need + 8 := by
      unfold CInt.toInt32
      have hhi := Int.bmod_lt (x := 2 * ((need : ℤ) + 8)) (m := 4294967296) (by decide)
      rw [Int.bmod_def] at hhi ⊢
      omega
    dsimp only
    rw [if_pos hlt]
  · rfl

theorem sound_growMsg : Sound growMsg := by
  intro size need size' h
  rw [growMsg_eq] at h
  split_ifs at h
  · obtain rfl := Option.some.inj h
    omega
  · obtain rfl := Option.some.inj h
    omega

/-- The reservations `ns`, after `used` bytes of a payload buffer of `size` bytes: whenever the message
outgrows the buffer it has less than `2 ^ 30` bytes. -/
def Fits : ℕ → ℕ → List ℕ → Prop
  | _, _, [] => True
  | size, used, n :: ns =>
    if size < used + n then used + n + 8 < 2 ^ 30 ∧ Fits (2 * (used + n + 8) - 8) (used + n) ns
    else Fits size (used + n) ns

instance decidableFits : (size used : ℕ) → (ns : List ℕ) → Decidable (Fits size used ns)
  | _, _, [] => isTrue trivial
  | size, used, n :: ns =>
    have := decidableFits (2 * (used + n + 8) - 8) (used + n) ns
    have := decidableFits size (used + n) ns
    inferInstanceAs (Decidable (if size < used + n then _ else _))

theorem fits_cons {size used n : ℕ} {ns : List ℕ} :
    Fits size used (n :: ns) ↔ ∃ size', growMsg size (used + n) = some size' ∧ Fits size' (used + n) ns := by
  rw [growMsg_eq, Fits]
  split_ifs with hsize hneed
  · simp only [hneed, true_and, Option.some.injEq, exists_eq_left']
  · simp only [hneed, false_and, exists_false]
  · simp only [Option.some.injEq, exists_eq_left']

section Reserve
variable {junk : ℕ → UInt8} {b b' : Buffer} {d w : List UInt8} {n : ℕ} {ns : List ℕ}

/-- The size of the message is an `int`. -/
def SizeOk (b : Buffer) : Prop := 248 ≤ b.bytes.length ∧ b.bytes.length + 8 < 2 ^ 31

theorem reserve_spec (h : b.reserve growMsg junk n = some b') :
    growMsg b.bytes.length (b.used + n) = some b'.bytes.length ∧ b'.used = b.used + n ∧
      (SizeOk b → SizeOk b') := by
  unfold Buffer.reserve at h
  obtain ⟨size, hsize, rfl⟩ := Option.map_eq_some_iff.mp h
  obtain ⟨hkeep, hroom⟩ := sound_growMsg _ _ _ hsize
  have hlen : (b.bytes ++ (List.range (size - b.bytes.length)).map fun k => junk (b.bytes.length + k)).length =
      size := by
    rw [List.length_append, List.length_map, List.length_range]
    omega
  refine ⟨by rw [hsize, hlen], rfl, fun hok => ?_⟩
  unfold SizeOk at hok ⊢
  rw [hlen]
  rw [growMsg_eq] at hsize
  split_ifs at hsize
  · obtain rfl := Option.some.inj hsize
    omega
  · obtain rfl := Option.some.inj hsize
    exact hok

theorem reserve_fits (junk : ℕ → UInt8) (b : Buffer) : Fits b.bytes.length b.used (n :: ns) ↔
    ∃ b', b.reserve growMsg junk n = some b' ∧ Fits b'.bytes.length b'.used ns := by
  rw [fits_cons]
  constructor
  · intro ⟨size, hsize, hfits⟩
    have hres : ∃ b', b.reserve growMsg junk n = some b' := ⟨_, by rw [Buffer.reserve, hsize]; rfl⟩
    obtain ⟨b', hb'⟩ := hres
    obtain ⟨hsize', hused, _⟩ := reserve_spec hb'
    obtain rfl := Option.some.inj (hsize.symm.trans hsize')
    exact ⟨b', hb', by rwa [hused]⟩
  · intro ⟨b', hb', hfits⟩
    obtain ⟨hsize, hused, _⟩ := reserve_spec hb'
    exact ⟨_, hsize, by rwa [← hused]⟩

/-- `dispatch_add2payload`: it appends to the payload and leaves the sizes as the reservation does. -/
theorem add2payload_spec (hw : b.Holds w) (h : add2payload junk d b = some b') :
    b'.Holds (w ++ d) ∧ (SizeOk b → SizeOk b') ∧
      ∃ c, b.reserve growMsg junk d.length = some c ∧ b'.bytes.length = c.bytes.length ∧ b'.used = c.used := by
  refine ⟨hw.add sound_growMsg h, ?_⟩
  unfold add2payload Buffer.add at h
  obtain ⟨c, hc, rfl⟩ := Option.map_eq_some_iff.mp h
  obtain ⟨hsize, hused, hok⟩ := reserve_spec hc
  have hlen : (write c.bytes b.used d).length = c.bytes.length :=
    length_write (sound_growMsg _ _ _ hsize).2
  refine ⟨fun hb => ?_, c, hc, hlen, rfl⟩
  unfold SizeOk at hok ⊢
  rw [hlen]
  exact hok hb

theorem add2payload_fits (junk : ℕ → UInt8) (hw : b.Holds w) : Fits b.bytes.length b.used (d.length :: ns) ↔
    ∃ b', add2payload junk d b = some b' ∧ Fits b'.bytes.length b'.used ns := by
  rw [reserve_fits junk]
  constructor
  · intro ⟨c, hc, hfits⟩
    have hadd : ∃ b', add2payload junk d b = some b' := ⟨_, by rw [add2payload, Buffer.add, hc]; rfl⟩
    obtain ⟨b', hb'⟩ := hadd
    obtain ⟨_, _, c', hc', hlen, hused⟩ := add2payload_spec hw hb'
    obtain rfl := Option.some.inj (hc.symm.trans hc')
    exact ⟨b', hb', by rwa [hlen, hused]⟩
  · intro ⟨b', hb', hfits⟩
    obtain ⟨_, _, c, hc, hlen, hused⟩ := add2payload_spec hw hb'
    exact ⟨c, hc, by rwa [← hlen, ← hused]⟩

/-- All new arrays. -/
theorem foldlM_add2payload (hw : b.Holds w) (ds : List ArrayWords) :
    (Fits b.bytes.length b.used (ds.map fun a => a.bytes.length) ↔
      ∃ b', ds.foldlM (fun b a => add2payload junk a.bytes b) b = some b') ∧
    ∀ b', ds.foldlM (fun b a => add2payload junk a.bytes b) b = some b' →
      b'.Holds (w ++ ds.flatMap ArrayWords.bytes) ∧ (SizeOk b → SizeOk b') := by
  induction ds generalizing b w with
  | nil =>
    refine ⟨⟨fun _ => ⟨b, rfl⟩, fun _ => trivial⟩, fun b' hb' => ?_⟩
    obtain rfl := Option.some.inj hb'
    rw [List.flatMap_nil, List.append_nil]
    exact ⟨hw, id⟩
  | cons a ds ih =>
    rw [List.map_cons, add2payload_fits junk hw, List.foldlM_cons]
    refine ⟨⟨fun ⟨c, hc, hfits⟩ => ?_, fun ⟨b', hb'⟩ => ?_⟩, fun b' hb' => ?_⟩
    · rw [hc]
      exact (ih (add2payload_spec hw hc).1).1.mp hfits
    · obtain ⟨c, hc, hrest⟩ := Option.bind_eq_some_iff.mp hb'
      exact ⟨c, hc, (ih (add2payload_spec hw hc).1).1.mpr ⟨b', hrest⟩⟩
    · obtain ⟨c, hc, hrest⟩ := Option.bind_eq_some_iff.mp hb'
      obtain ⟨hholds, hok, _⟩ := add2payload_spec hw hc
      obtain ⟨hall, hok'⟩ := (ih hholds).2 b' hrest
      rw [List.flatMap_cons, ← List.append_assoc]
      exact ⟨hall, fun hb => hok' (hok hb)⟩

end Reserve

/-! ## Decoding -/

section Decode
variable {rest : List UInt8}

theorem readCString_terminated (name : CString) : readCString (name.terminated ++ rest) = some name := by
  have htake : (name.terminated ++ rest).takeWhile (· ≠ 0) = name.bytes := by
    rw [CString.terminated, List.append_assoc, List.takeWhile_append_of_pos]
    · simp
    · intro x hx
      have hne : x ≠ 0 := fun h => name.noZero (h ▸ hx)
      simpa using hne
  unfold readCString
  rw [if_pos (by simp [CString.terminated])]
  simp only [htake]

theorem decodePayload_init (name : CString) : decodePayload 0 (name.terminated ++ rest) = some (.init name) := by
  rw [decodePayload, readCString_terminated]
  rfl

theorem decodePayload_extmethod {d : List UInt8} (hd : d.length = 8) (name : CString) :
    decodePayload 3 (d ++ name.terminated ++ rest) = some (.extmethod (wordOf d) name) := by
  have hread : read (d ++ name.terminated ++ rest) 0 8 = some d := by
    rw [List.append_assoc]
    exact read_append (w := []) rfl hd.symm
  have hname : readCString ((d ++ name.terminated ++ rest).drop 8) = some name := by
    rw [List.append_assoc, ← hd, List.drop_left, readCString_terminated]
  simp only [decodePayload, hread, Option.bind_eq_bind, Option.bind_some, hname, Option.map_some]

theorem decodePayload_exec {bhir : List UInt8} {darys : List ArrayWords} (hb : bhir.length < 2 ^ 64)
    (hd : darys.length < 2 ^ 64) :
    decodePayload 2 (wordBytes (BitVec.ofNat 64 bhir.length) ++ bhir ++ wordBytes (BitVec.ofNat 64 darys.length) ++
      darys.flatMap ArrayWords.bytes ++ rest) = some (.exec bhir darys) := by
  generalize hl : wordBytes (BitVec.ofNat 64 bhir.length) ++ bhir ++ wordBytes (BitVec.ofNat 64 darys.length) ++
    darys.flatMap ArrayWords.bytes ++ rest = l
  have hsize : read l 0 8 = some (wordBytes (BitVec.ofNat 64 bhir.length)) := by
    rw [← hl, List.append_assoc, List.append_assoc, List.append_assoc]
    exact read_append (w := []) rfl (by simp)
  have hbhir : read l 8 bhir.length = some bhir := by
    rw [← hl, List.append_assoc, List.append_assoc]
    exact read_append (by simp) rfl
  have hnoa : read l (8 + bhir.length) 8 = some (wordBytes (BitVec.ofNat 64 darys.length)) := by
    rw [← hl, List.append_assoc]
    exact read_append (by simp) (by simp)
  have harrays := mapM_read_arrays rest
    (wordBytes (BitVec.ofNat 64 bhir.length) ++ bhir ++ wordBytes (BitVec.ofNat 64 darys.length)) darys
  have hpre : (wordBytes (BitVec.ofNat 64 bhir.length) ++ bhir ++
      wordBytes (BitVec.ofNat 64 darys.length)).length = 8 + bhir.length + 8 := by
    rw [List.length_append, List.length_append, length_wordBytes, length_wordBytes]
  rw [hl, hpre] at harrays
  have hn : (BitVec.ofNat 64 bhir.length).toNat = bhir.length := by
    rw [BitVec.toNat_ofNat, Nat.mod_eq_of_lt hb]
  have hm : (BitVec.ofNat 64 darys.length).toNat = darys.length := by
    rw [BitVec.toNat_ofNat, Nat.mod_eq_of_lt hd]
  simp only [decodePayload, hsize, Option.bind_eq_bind, Option.bind_some, wordOf_wordBytes, hn, hbhir, hnoa, hm,
    harrays, List.map_map]
  refine congrArg some (congrArg (Payload.exec bhir) ?_)
  conv_rhs => rw [← List.map_id darys]
  exact List.map_congr_left fun a _ => ArrayWords.ofBytes_bytes a

end Decode

/-! ## The broadcasts -/

/-- The slave has the header and the payload, whatever its buffer held before. -/
theorem dispatchRecv_dispatchSend {b : Buffer} {w : List UInt8} (junk : ℕ → UInt8) (raw : List UInt8) (type : ℕ)
    (hok : SizeOk b) (hw : b.Holds w) :
    ∃ rest, dispatchRecv junk raw (dispatchSend type b) =
      some (Bytes.ofNat 4 type ++ Bytes.ofNat 4 w.length ++ w ++ rest) := by
  obtain ⟨hused, tail, hbytes⟩ := hw
  obtain ⟨hmin, hmax⟩ := hok
  have hle : w.length ≤ b.bytes.length := by
    rw [hbytes, List.length_append]
    exact Nat.le_add_right _ _
  -- the header and the payload at the start of the master's buffer
  obtain ⟨full, hfull⟩ : ∃ full, full = Bytes.ofNat 4 type ++ Bytes.ofNat 4 w.length ++ w := ⟨_, rfl⟩
  have hlen : full.length = w.length + 8 := by
    rw [hfull, List.length_append, List.length_append, length_ofNat, length_ofNat]
    omega
  have hrawBytes : rawBytes type b = full ++ tail := by
    rw [rawBytes, hused, hbytes, hfull, List.append_assoc, List.append_assoc, List.append_assoc]
  have hlenraw : defaultMsgSize ≤ (full ++ tail).length := by
    rw [← hrawBytes, rawBytes, List.length_append, List.length_append, length_ofNat, length_ofNat]
    unfold defaultMsgSize
    omega
  obtain ⟨first, hfirst⟩ : ∃ first, first = (full ++ tail).take defaultMsgSize := ⟨_, rfl⟩
  have hfirstlen : first.length = defaultMsgSize := by
    rw [hfirst, List.length_take_of_le hlenraw]
  have hwrite : write raw 0 first = first ++ raw.drop defaultMsgSize := by
    rw [write, List.take_zero, List.nil_append, hfirstlen, Nat.zero_add]
  -- the size that the slave reads
  have hsize : Bytes.toNat (((first ++ raw.drop defaultMsgSize).drop 4).take 4) = w.length := by
    have hread : ((first ++ raw.drop defaultMsgSize).drop 4).take 4 = Bytes.ofNat 4 w.length := by
      have hprefix : first.take 8 = Bytes.ofNat 4 type ++ Bytes.ofNat 4 w.length := by
        rw [hfirst, List.take_take, hfull, List.append_assoc, show min 8 defaultMsgSize = 8 from rfl]
        exact List.take_left' (by simp)
      have hsplit : ((first ++ raw.drop defaultMsgSize).drop 4).take 4 = (first.take 8).drop 4 := by
        rw [List.drop_append_of_le_length (by rw [hfirstlen]; decide), List.take_append_of_le_length, List.drop_take]
        rw [List.length_drop, hfirstlen]
        decide
      rw [hsplit, hprefix]
      exact List.drop_left' (by simp)
    rw [hread]
    exact toNat_ofNat_of_lt (by omega)
  have hsend : dispatchSend type b = if defaultMsgSize < w.length + 8 then
      [first, ((full ++ tail).drop defaultMsgSize).take (w.length + 8 - defaultMsgSize)] else [first] := by
    rw [dispatchSend, hrawBytes, hused, hfirst]
  rw [hsend]
  by_cases hlong : defaultMsgSize < w.length + 8
  · obtain ⟨left, hleft⟩ : ∃ left, left = ((full ++ tail).drop defaultMsgSize).take (w.length + 8 - defaultMsgSize) :=
      ⟨_, rfl⟩
    have hleftlen : left.length = w.length + 8 - defaultMsgSize := by
      rw [hleft, List.length_take_of_le]
      rw [List.length_drop, List.length_append, hlen]
      omega
    have hboth : first ++ left = full := by
      rw [hfirst, hleft, ← List.take_add, show defaultMsgSize + (w.length + 8 - defaultMsgSize) = full.length by omega,
        List.take_left]
    rw [if_pos hlong, ← hleft, ← hfull, ← hboth]
    simp only [dispatchRecv, hfirstlen, if_true, hwrite, hsize]
    rw [if_pos (by omega), if_pos (by omega)]
    rw [write, List.append_assoc first, List.take_left' hfirstlen]
    exact ⟨_, rfl⟩
  · have hshort : first = full ++ tail.take (defaultMsgSize - full.length) := by
      rw [hfirst, List.take_append, List.take_of_length_le (by omega)]
    rw [if_neg hlong, ← hfull]
    simp only [dispatchRecv, hfirstlen, if_true, hwrite, hsize]
    rw [if_neg (by omega), List.append_assoc]
    nth_rewrite 1 [hshort]
    rw [List.append_assoc]
    exact ⟨_, rfl⟩

/-! ## Round trips -/

/-- The sizes that are reserved one after the other. -/
def Payload.reservations : Payload → List ℕ
  | .init name => [name.bytes.length + 1]
  | .extmethod _ name => [8, name.bytes.length + 1]
  | .exec bhir darys => [8, bhir.length, 8] ++ List.replicate darys.length 32

/-- What a slave gets: the opcode of an extension method is what lies at the address that it is. -/
def Payload.arriving (mem : ℕ → Option UInt8) : Payload → Option Payload
  | .extmethod opcode name => (readMem mem opcode.toNat 8).map fun d => .extmethod (wordOf d) name
  | p => some p

section RoundTrip
variable {mem : ℕ → Option UInt8} {junk : ℕ → UInt8} {b b' : Buffer}

/-- The payload in the buffer decodes to what arrives, whatever follows it. -/
def Carries (mem : ℕ → Option UInt8) (p : Payload) (b : Buffer) : Prop :=
  SizeOk b ∧ ∃ w q, b.Holds w ∧ p.arriving mem = some q ∧ ∀ rest, decodePayload p.type (w ++ rest) = some q

theorem length_readMem {addr n : ℕ} {d : List UInt8} (h : readMem mem addr n = some d) : d.length = n := by
  have hlen : ∀ {l : List ℕ} {f : ℕ → Option UInt8} {d : List UInt8}, l.mapM f = some d → d.length = l.length := by
    intro l f
    induction l with
    | nil =>
      intro d hd
      obtain rfl := Option.some.inj hd
      rfl
    | cons a l ih =>
      intro d hd
      rw [List.mapM_cons] at hd
      obtain ⟨x, _, hd⟩ := Option.bind_eq_some_iff.mp hd
      obtain ⟨xs, hxs, hd⟩ := Option.bind_eq_some_iff.mp hd
      obtain rfl := Option.some.inj hd
      rw [List.length_cons, List.length_cons, ih hxs]
  rw [hlen h, List.length_range]

theorem packPayload_init (hok : SizeOk b) (hb : b.Holds []) (name : CString) :
    (Fits b.bytes.length b.used (Payload.init name).reservations ↔ ∃ b', packPayload junk mem b (.init name) = some b') ∧
      ∀ b', packPayload junk mem b (.init name) = some b' → Carries mem (.init name) b' := by
  have hlen : name.terminated.length = name.bytes.length + 1 := by simp [CString.terminated]
  refine ⟨?_, fun b' h => ?_⟩
  · rw [Payload.reservations, ← hlen, add2payload_fits junk hb]
    exact ⟨fun ⟨c, hc, _⟩ => ⟨c, hc⟩, fun ⟨c, hc⟩ => ⟨c, hc, trivial⟩⟩
  · obtain ⟨hholds, hok', _⟩ := add2payload_spec hb h
    exact ⟨hok' hok, _, _, hholds, rfl, fun rest => decodePayload_init name⟩

theorem packPayload_extmethod (hok : SizeOk b) (hb : b.Holds []) (opcode : BitVec 64) (name : CString) :
    (Fits b.bytes.length b.used (Payload.extmethod opcode name).reservations ∧ (readMem mem opcode.toNat 8).isSome ↔
      ∃ b', packPayload junk mem b (.extmethod opcode name) = some b') ∧
    ∀ b', packPayload junk mem b (.extmethod opcode name) = some b' → Carries mem (.extmethod opcode name) b' := by
  have hlen : name.terminated.length = name.bytes.length + 1 := by simp [CString.terminated]
  cases hd : readMem mem opcode.toNat 8 with
  | none => simp [packPayload, hd]
  | some d =>
    have hdlen := length_readMem hd
    refine ⟨?_, fun b' h => ?_⟩
    · rw [Payload.reservations, ← hlen]
      nth_rewrite 1 [← hdlen]
      rw [add2payload_fits junk hb]
      simp only [packPayload, hd, Option.isSome_some, and_true, Option.bind_eq_bind, Option.bind_some]
      constructor
      · intro ⟨c, hc, hfits⟩
        obtain ⟨b', hb', _⟩ := (add2payload_fits junk (add2payload_spec hb hc).1).mp hfits
        exact ⟨b', by rw [hc]; exact hb'⟩
      · intro ⟨b', hb'⟩
        obtain ⟨c, hc, hb'⟩ := Option.bind_eq_some_iff.mp hb'
        exact ⟨c, hc, (add2payload_fits junk (add2payload_spec hb hc).1).mpr ⟨b', hb', trivial⟩⟩
    · simp only [packPayload, hd, Option.bind_eq_bind, Option.bind_some] at h
      obtain ⟨c, hc, hb'⟩ := Option.bind_eq_some_iff.mp h
      obtain ⟨hholds, hok', _⟩ := add2payload_spec hb hc
      obtain ⟨hholds', hok'', _⟩ := add2payload_spec hholds hb'
      refine ⟨hok'' (hok' hok), _, _, hholds', ?_, fun rest => decodePayload_extmethod hdlen name⟩
      rw [Payload.arriving, hd]
      rfl

theorem packPayload_exec (hok : SizeOk b) (hb : b.Holds []) (bhir : List UInt8) (darys : List ArrayWords) :
    (Fits b.bytes.length b.used (Payload.exec bhir darys).reservations ↔
      ∃ b', packPayload junk mem b (.exec bhir darys) = some b') ∧
    ∀ b', packPayload junk mem b (.exec bhir darys) = some b' → Carries mem (.exec bhir darys) b' := by
  have hreplicate : List.replicate darys.length 32 = darys.map fun a => a.bytes.length := by
    simp [List.map_const']
  refine ⟨?_, fun b' h => ?_⟩
  · rw [Payload.reservations, hreplicate]
    nth_rewrite 1 [← length_wordBytes (BitVec.ofNat 64 bhir.length)]
    rw [List.cons_append, add2payload_fits junk hb]
    simp only [packPayload, Option.bind_eq_bind]
    constructor
    · intro ⟨c, hc, hfits⟩
      have hcw := (add2payload_spec hb hc).1
      obtain ⟨c₂, hc₂, hfits⟩ := (add2payload_fits junk hcw).mp hfits
      obtain ⟨c₃, hc₃, hfits⟩ := (reserve_fits junk c₂).mp hfits
      obtain ⟨u, _, hc₃w⟩ := (add2payload_spec hcw hc₂).1.reserve sound_growMsg hc₃
      obtain ⟨c₄, hc₄⟩ := (foldlM_add2payload hc₃w darys).1.mp hfits
      simp only [hc, hc₂, hc₃, Option.bind_some]
      rw [hc₄]
      exact ⟨_, rfl⟩
    · intro ⟨b', hb'⟩
      obtain ⟨c, hc, hb'⟩ := Option.bind_eq_some_iff.mp hb'
      obtain ⟨c₂, hc₂, hb'⟩ := Option.bind_eq_some_iff.mp hb'
      obtain ⟨c₃, hc₃, hb'⟩ := Option.bind_eq_some_iff.mp hb'
      obtain ⟨c₄, hc₄, _⟩ := Option.bind_eq_some_iff.mp hb'
      have hcw := (add2payload_spec hb hc).1
      obtain ⟨u, _, hc₃w⟩ := (add2payload_spec hcw hc₂).1.reserve sound_growMsg hc₃
      refine ⟨c, hc, (add2payload_fits junk hcw).mpr ⟨c₂, hc₂, (reserve_fits junk c₂).mpr ⟨c₃, hc₃, ?_⟩⟩⟩
      exact (foldlM_add2payload hc₃w darys).1.mpr ⟨c₄, hc₄⟩
  · simp only [packPayload, Option.bind_eq_bind] at h
    obtain ⟨c, hc, h⟩ := Option.bind_eq_some_iff.mp h
    obtain ⟨c₂, hc₂, h⟩ := Option.bind_eq_some_iff.mp h
    obtain ⟨c₃, hc₃, h⟩ := Option.bind_eq_some_iff.mp h
    obtain ⟨c₄, hc₄, h⟩ := Option.bind_eq_some_iff.mp h
    obtain rfl := Option.some.inj h
    obtain ⟨hcw, hcok, _⟩ := add2payload_spec hb hc
    obtain ⟨hc₂w, hc₂ok, _⟩ := add2payload_spec hcw hc₂
    obtain ⟨u, hu, hc₃w⟩ := hc₂w.reserve sound_growMsg hc₃
    obtain ⟨hc₄w, hc₄ok⟩ := (foldlM_add2payload hc₃w darys).2 c₄ hc₄
    have hok₄ := hc₄ok ((reserve_spec hc₃).2.2 (hc₂ok (hcok hok)))
    -- the number of arrays goes where memory was reserved
    have hpatched := hc₄w.write (show (wordBytes (BitVec.ofNat 64 darys.length)).length = u.length by simp [hu])
    rw [← hc₂w.1] at hpatched
    have hlen : (c₄.bytes).length = (write c₄.bytes c₂.used (wordBytes (BitVec.ofNat 64 darys.length))).length := by
      obtain ⟨hused, rest, hbytes⟩ := hc₄w
      rw [length_write]
      rw [hc₂w.1, hbytes]
      simp [hu]
      omega
    obtain ⟨hused, rest, hbytes⟩ := hpatched
    have hbound : c₄.used ≤ c₄.bytes.length := by
      rw [hlen]
      show _ ≤ (write c₄.bytes c₂.used (wordBytes (BitVec.ofNat 64 darys.length))).length
      dsimp only at hused hbytes
      rw [hused, hbytes]
      exact (List.prefix_append _ rest).length_le
    have hused' := hused
    simp only [List.nil_append, List.length_append, length_wordBytes, length_flatMap_bytes] at hused'
    unfold SizeOk at hok₄
    refine ⟨by rw [SizeOk, ← hlen]; exact hok₄, _, _, ⟨hused, rest, hbytes⟩, rfl, fun rest => ?_⟩
    exact decodePayload_exec (by omega) (by omega)

theorem packPayload_spec (hok : SizeOk b) (hb : b.Holds []) (p : Payload) :
    (Fits b.bytes.length b.used p.reservations ∧ (p.arriving mem).isSome ↔ ∃ b', packPayload junk mem b p = some b') ∧
      ∀ b', packPayload junk mem b p = some b' → Carries mem p b' := by
  cases p with
  | init name => simpa [Payload.arriving] using packPayload_init hok hb name
  | extmethod opcode name => simpa [Payload.arriving] using packPayload_extmethod hok hb opcode name
  | exec bhir darys => simpa [Payload.arriving] using packPayload_exec hok hb bhir darys

/-- What a slave decodes, in full. -/
theorem roundTrip_eq {junk' : ℕ → UInt8} {raw : List UInt8} (hok : SizeOk b) (p : Payload) :
    roundTrip mem junk junk' b raw p = if Fits b.bytes.length 0 p.reservations then p.arriving mem else none := by
  have hreset : SizeOk { b with used := 0 } := hok
  have hspec : (Fits b.bytes.length 0 p.reservations ∧ (p.arriving mem).isSome ↔
      ∃ b', packPayload junk mem { b with used := 0 } p = some b') ∧ _ := packPayload_spec hreset ⟨rfl, b.bytes, rfl⟩ p
  unfold roundTrip
  cases hpack : packPayload junk mem { b with used := 0 } p with
  | none =>
    have hnot : ¬ (Fits b.bytes.length 0 p.reservations ∧ (p.arriving mem).isSome) := by
      intro h
      obtain ⟨b', hb'⟩ := hspec.1.mp h
      rw [hpack] at hb'
      cases hb'
    show none = _
    split_ifs with hfits
    · rw [eq_comm, ← Option.not_isSome_iff_eq_none]
      exact fun h => hnot ⟨hfits, h⟩
    · rfl
  | some b' =>
    obtain ⟨hok', w, q, hholds, harriving, hdecode⟩ := hspec.2 b' hpack
    have hfits := (hspec.1.mpr ⟨b', hpack⟩).1
    obtain ⟨rest, hrecv⟩ := dispatchRecv_dispatchSend junk' raw p.type hok' hholds
    have htype : p.type < 256 ^ 4 := by cases p <;> simp [Payload.type]
    have hhead : (Bytes.ofNat 4 p.type ++ Bytes.ofNat 4 w.length ++ w ++ rest).take 4 = Bytes.ofNat 4 p.type := by
      rw [List.append_assoc, List.append_assoc]
      exact List.take_left' (by simp)
    have hbody : (Bytes.ofNat 4 p.type ++ Bytes.ofNat 4 w.length ++ w ++ rest).drop 8 = w ++ rest := by
      rw [List.append_assoc]
      exact List.drop_left' (by simp)
    rw [if_pos hfits, harriving]
    simp only [Option.bind_eq_bind, Option.bind_some, hrecv, hhead, hbody, toNat_ofNat_of_lt htype, hdecode]

end RoundTrip

/-- A message arrives as it was encoded exactly if the buffer can grow to its size and, for an extension
method, the memory of the master at the address that the opcode is holds the opcode. -/
theorem roundTrip_iff (mem : ℕ → Option UInt8) (junk junk' : ℕ → UInt8) (b : Buffer) (raw : List UInt8) (p : Payload)
    (hok : SizeOk b) :
    roundTrip mem junk junk' b raw p = some p ↔ Fits b.bytes.length 0 p.reservations ∧
      ∀ opcode name, p = .extmethod opcode name → (readMem mem opcode.toNat 8).map wordOf = some opcode := by
  rw [roundTrip_eq hok]
  split_ifs with hfits
  · cases p with
    | extmethod opcode name =>
      cases hread : readMem mem opcode.toNat 8 with
      | none => simp [hfits, Payload.arriving, hread]
      | some d => simp [hfits, Payload.arriving, hread]
    | init name => simp [hfits, Payload.arriving]
    | exec bhir darys => simp [hfits, Payload.arriving]
  · simp [hfits]

/-- The message buffer of a process at the start, and memory whose first page is not mapped. -/
def freshBuffer : Buffer := ⟨List.replicate 248 0, 0⟩

theorem length_freshBuffer : freshBuffer.bytes.length = 248 := List.length_replicate

theorem sizeOk_freshBuffer : SizeOk freshBuffer := by
  rw [SizeOk, length_freshBuffer]
  decide

def firstPageUnmapped : ℕ → Option UInt8 := fun addr => if addr < 4096 then none else some 0

def oneArray : Payload := .exec [1, 2, 3] [⟨7, ⟨0, 3, 10⟩⟩]

theorem roundTrip_oneArray :
    roundTrip firstPageUnmapped (fun _ => 0) (fun _ => 0) freshBuffer (List.replicate 256 0) oneArray = some oneArray :=
  (roundTrip_iff _ _ _ _ _ _ sizeOk_freshBuffer).mpr
    ⟨by rw [length_freshBuffer]; decide, nofun⟩

/-- The extension method `mat`, with opcode 200. -/
def matMethod : Payload := .extmethod 200 ⟨[109, 97, 116], by decide⟩

theorem not_roundTrip_matMethod :
    roundTrip firstPageUnmapped (fun _ => 0) (fun _ => 0) freshBuffer (List.replicate 256 0) matMethod ≠
      some matMethod := by
  have hread : readMem firstPageUnmapped 200 8 = none := by decide
  rw [roundTrip_eq sizeOk_freshBuffer]
  intro h
  split_ifs at h
  rw [matMethod, Payload.arriving, show (200 : BitVec 64).toNat = 200 from rfl, hread] at h
  cases h

end Bohrium.Cluster
