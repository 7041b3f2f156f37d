import Bohrium.Library.Bytes

/-! # Words on the wire

`bh_intp`, pointers and the array structs that the cluster and the proxy put into their messages, as
bytes: eight for each word, the lowest first. -/
namespace Bohrium
open Bytes
set_option autoImplicit false

/-- `bh_base`, word by word. -/
structure BaseHeader where
  data : BitVec 64
  type : BitVec 64
  nelem : BitVec 64
  deriving DecidableEq

/-- `dispatch_array` of the cluster and `array_header` of the proxy, word by word. -/
structure ArrayWords where
  id : BitVec 64
  ary : BaseHeader
  deriving DecidableEq

def wordBytes (x : BitVec 64) : List UInt8 := Bytes.ofNat 8 x.toNat

def wordOf (bs : List UInt8) : BitVec 64 := BitVec.ofNat 64 (Bytes.toNat bs)

def ArrayWords.bytes (a : ArrayWords) : List UInt8 :=
  wordBytes a.id ++ wordBytes a.ary.data ++ wordBytes a.ary.type ++ wordBytes a.ary.nelem

def ArrayWords.ofBytes (bs : List UInt8) : ArrayWords :=
  ⟨wordOf (bs.take 8), ⟨wordOf ((bs.drop 8).take 8), wordOf ((bs.drop 16).take 8), wordOf ((bs.drop 24).take 8)⟩⟩

section Wire
variable {rest : List UInt8}

theorem wordOf_wordBytes (x : BitVec 64) : wordOf (wordBytes x) = x := by
  unfold wordOf wordBytes
  rw [Bytes.toNat_ofNat]
  apply BitVec.eq_of_toNat_eq
  rw [BitVec.toNat_ofNat]
  have hlt := x.isLt
  omega

@[simp] theorem length_wordBytes (x : BitVec 64) : (wordBytes x).length = 8 := length_ofNat 8 x.toNat

@[simp] theorem ArrayWords.length_bytes (a : ArrayWords) : a.bytes.length = 32 := by simp [ArrayWords.bytes]

theorem length_flatMap_bytes (ds : List ArrayWords) : (ds.flatMap ArrayWords.bytes).length = 32 * ds.length := by
  induction ds with
  | nil => rfl
  | cons a ds ih =>
    rw [List.flatMap_cons, List.length_append, ih, ArrayWords.length_bytes, List.length_cons]
    omega

theorem ArrayWords.ofBytes_bytes (a : ArrayWords) : ArrayWords.ofBytes a.bytes = a := by
  have hblock : ∀ {p q r : List UInt8} {n : ℕ} {x : BitVec 64}, q = wordBytes x → p.length = n →
      wordOf (((p ++ q ++ r).drop n).take 8) = x := by
    rintro p q r n x rfl rfl
    rw [List.append_assoc, List.drop_left, List.take_left' (length_wordBytes x), wordOf_wordBytes]
  have hid : wordOf (a.bytes.take 8) = a.id := by
    rw [← List.drop_zero (l := a.bytes), ArrayWords.bytes, List.append_assoc, List.append_assoc]
    exact hblock (p := []) rfl rfl
  have hdata : wordOf ((a.bytes.drop 8).take 8) = a.ary.data := by
    rw [ArrayWords.bytes, List.append_assoc]
    exact hblock rfl (by simp)
  have htype : wordOf ((a.bytes.drop 16).take 8) = a.ary.type := by
    rw [ArrayWords.bytes]
    exact hblock rfl (by simp)
  have hnelem : wordOf ((a.bytes.drop 24).take 8) = a.ary.nelem := by
    rw [← List.append_nil a.bytes, ArrayWords.bytes]
    exact hblock rfl (by simp)
  rw [ArrayWords.ofBytes, hid, hdata, htype, hnelem]

/-- The arrays one after the other. -/
theorem mapM_read_arrays (rest pre : List UInt8) (ds : List ArrayWords) :
    ((List.range ds.length).mapM fun k => read (pre ++ ds.flatMap ArrayWords.bytes ++ rest) (pre.length + 32 * k) 32) =
      some (ds.map ArrayWords.bytes) := by
  induction ds generalizing pre with
  | nil => rfl
  | cons a ds ih =>
    have hfirst : read (pre ++ (a :: ds).flatMap ArrayWords.bytes ++ rest) (pre.length + 32 * 0) 32 = some a.bytes := by
      rw [List.flatMap_cons, ← List.append_assoc, List.append_assoc (pre ++ a.bytes)]
      exact read_append (by omega) (by simp)
    have hrest := ih (pre ++ a.bytes)
    rw [List.length_cons, List.range_succ_eq_map, List.mapM_cons, hfirst, List.mapM_map]
    have hfun : (fun k => read (pre ++ (a :: ds).flatMap ArrayWords.bytes ++ rest) (pre.length + 32 * k) 32) ∘ Nat.succ =
        fun k => read (pre ++ a.bytes ++ ds.flatMap ArrayWords.bytes ++ rest) ((pre ++ a.bytes).length + 32 * k) 32 := by
      funext k
      rw [Function.comp_apply, List.flatMap_cons, ← List.append_assoc, List.length_append, ArrayWords.length_bytes]
      congr 1
      omega
    rw [hfun, hrest]
    rfl

end Wire

end Bohrium
