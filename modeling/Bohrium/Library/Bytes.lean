import Mathlib.Data.List.Basic
import Mathlib.Data.Nat.Notation
import Mathlib.Tactic.Ring

/-! # Byte buffers

Numbers as bytes, the lowest byte first; and a buffer that grows while memory at its end is reserved
and written. How it grows is a parameter, which may fail. A buffer holds a word if its used part is
that word (`Buffer.Holds`): reserving appends bytes that are not specified, adding appends data, and a
part of the word may be patched later. -/
namespace Bytes
set_option autoImplicit false

/-! ## Numbers -/

/-- The first `w` bytes of a number. -/
def ofNat (w n : ℕ) : List UInt8 := (List.range w).map fun k => UInt8.ofNat (n / 256 ^ k)

def toNat (bs : List UInt8) : ℕ := bs.foldr (fun b n => b.toNat + 256 * n) 0

@[simp] theorem length_ofNat (w n : ℕ) : (ofNat w n).length = w := by simp [ofNat]

theorem ofNat_succ (w n : ℕ) : ofNat (w + 1) n = UInt8.ofNat n :: ofNat w (n / 256) := by
  unfold ofNat
  rw [List.range_succ_eq_map, List.map_cons, List.map_map, pow_zero, Nat.div_one]
  refine congrArg _ (List.map_congr_left fun k _ => ?_)
  rw [Function.comp_apply, Nat.div_div_eq_div_mul, pow_succ']

theorem toNat_ofNat (w n : ℕ) : toNat (ofNat w n) = n % 256 ^ w := by
  induction w generalizing n with
  | zero => simp [ofNat, toNat, Nat.mod_one]
  | succ w ih =>
    have hfirst : (UInt8.ofNat n).toNat = n % 256 := rfl
    rw [ofNat_succ]
    show (UInt8.ofNat n).toNat + 256 * toNat (ofNat w (n / 256)) = _
    rw [ih, hfirst, pow_succ', Nat.mod_mul]

theorem toNat_ofNat_of_lt {w n : ℕ} (h : n < 256 ^ w) : toNat (ofNat w n) = n := by
  rw [toNat_ofNat, Nat.mod_eq_of_lt h]

/-! ## Reading and writing -/

/-- `n` bytes from an offset on, if they are there. -/
def read (l : List UInt8) (off n : ℕ) : Option (List UInt8) :=
  if off + n ≤ l.length then some ((l.drop off).take n) else none

/-- `d` over the bytes from an offset on. -/
def write (l : List UInt8) (off : ℕ) (d : List UInt8) : List UInt8 :=
  l.take off ++ d ++ l.drop (off + d.length)

theorem read_append {w d rest : List UInt8} {off n : ℕ} (hoff : off = w.length) (hn : n = d.length) :
    read (w ++ d ++ rest) off n = some d := by
  subst hoff hn
  rw [read, if_pos (by simp), List.append_assoc, List.drop_left, List.take_left]

theorem length_write {l d : List UInt8} {off : ℕ} (h : off + d.length ≤ l.length) : (write l off d).length = l.length := by
  unfold write
  rw [List.length_append, List.length_append, List.length_take, List.length_drop]
  omega

theorem write_append {w u rest d : List UInt8} {off : ℕ} (hoff : off = w.length) (hd : d.length = u.length) :
    write (w ++ u ++ rest) off d = w ++ d ++ rest := by
  subst hoff
  rw [write, hd, ← List.length_append, List.drop_left, List.append_assoc w u rest, List.take_left]

/-! ## Growing buffers -/

/-- The memory of a buffer and how much of it is used. -/
structure Buffer where
  bytes : List UInt8
  used : ℕ

/-- Growing keeps what is there and makes room for what is needed. -/
def Sound (grow : ℕ → ℕ → Option ℕ) : Prop := ∀ size need size', grow size need = some size' → size ≤ size' ∧ need ≤ size'

namespace Buffer
variable (grow : ℕ → ℕ → Option ℕ) (junk : ℕ → UInt8)

/-- `n` bytes more are used; what lies in new memory is not specified. -/
def reserve (n : ℕ) (b : Buffer) : Option Buffer :=
  (grow b.bytes.length (b.used + n)).map fun size =>
    ⟨b.bytes ++ (List.range (size - b.bytes.length)).map fun k => junk (b.bytes.length + k), b.used + n⟩

/-- Memory is reserved and written. -/
def add (d : List UInt8) (b : Buffer) : Option Buffer :=
  (reserve grow junk d.length b).map fun b' => { b' with bytes := write b'.bytes b.used d }

/-- The used part of the buffer is the word `w`. -/
def Holds (b : Buffer) (w : List UInt8) : Prop := b.used = w.length ∧ ∃ rest, b.bytes = w ++ rest

variable {grow junk} {b b' : Buffer} {w d : List UInt8} {n : ℕ}

theorem Holds.reserve (hgrow : Sound grow) (h : b.Holds w) (hr : b.reserve grow junk n = some b') :
    ∃ u, u.length = n ∧ b'.Holds (w ++ u) := by
  obtain ⟨hused, rest, hbytes⟩ := h
  unfold Buffer.reserve at hr
  obtain ⟨size, hsize, rfl⟩ := Option.map_eq_some_iff.mp hr
  obtain ⟨hkeep, hroom⟩ := hgrow _ _ _ hsize
  generalize hnew : (List.range (size - b.bytes.length)).map (fun k => junk (b.bytes.length + k)) = new
  have hlen : n ≤ (rest ++ new).length := by
    have hb : b.bytes.length = w.length + rest.length := by rw [hbytes, List.length_append]
    have hn : new.length = size - b.bytes.length := by rw [← hnew]; simp
    rw [List.length_append]
    omega
  refine ⟨(rest ++ new).take n, List.length_take_of_le hlen, ?_, (rest ++ new).drop n, ?_⟩
  · rw [List.length_append, List.length_take_of_le hlen, hused]
  · rw [hbytes, List.append_assoc, List.append_assoc, List.take_append_drop]

theorem Holds.add (hgrow : Sound grow) (h : b.Holds w) (ha : b.add grow junk d = some b') : b'.Holds (w ++ d) := by
  unfold Buffer.add at ha
  obtain ⟨c, hc, rfl⟩ := Option.map_eq_some_iff.mp ha
  obtain ⟨u, hu, hused, rest, hbytes⟩ := h.reserve hgrow hc
  refine ⟨?_, rest, ?_⟩
  · rw [hused, List.length_append, List.length_append, hu]
  · show write c.bytes b.used d = _
    rw [hbytes, write_append h.1 hu.symm]

theorem Holds.write {u v : List UInt8} (h : b.Holds (w ++ u ++ v)) (hd : d.length = u.length) :
    Holds { b with bytes := Bytes.write b.bytes w.length d } (w ++ d ++ v) := by
  obtain ⟨hused, rest, hbytes⟩ := h
  refine ⟨?_, rest, ?_⟩
  · show b.used = _
    rw [hused]
    simp [hd]
  · show Bytes.write b.bytes w.length d = _
    rw [hbytes, List.append_assoc (w ++ u), write_append rfl hd, ← List.append_assoc]

end Buffer
end Bytes
