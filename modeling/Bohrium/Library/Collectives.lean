import Mathlib.Algebra.Order.Ring.Int
import Mathlib.Data.List.Basic
import Mathlib.Data.List.TakeDrop

/-! # Collective operations

The root of a group of processes has a buffer, and each process has one. The root sends every process a block of its
buffer, or collects a block from every process. What does this is a parameter, with what is documented about it for
blocks of whole elements that lie in the buffers and have no element in common. -/
namespace Collectives
set_option autoImplicit false

variable {V : Type}

/-- The operations get the number of processes, the bytes of an element, the buffer at the root or at the processes, the
counts and displacements of the blocks in bytes, and the buffers to be written. An error is `none`. -/
structure Operations (V : Type) where
  scatterv (worldsize size : ℕ) (sendbuf : List V) (sendcnts displs : ℕ → ℤ) (recvbuf : ℕ → List V) : Option (ℕ → List V)
  gatherv (worldsize size : ℕ) (sendbuf : ℕ → List V) (recvcnts displs : ℕ → ℤ) (recvbuf : List V) : Option (List V)

/-- The counts and displacements, in bytes, name the blocks of `count r` elements from element `displ r` on: blocks inside
the root's buffer that do not overlap, and no longer than the buffers of the processes. -/
structure Blocks (worldsize size length : ℕ) (lengths : ℕ → ℕ) (counts displs : ℕ → ℤ) (count displ : ℕ → ℕ) : Prop where
  counts : ∀ r < worldsize, counts r = count r * size
  displs : ∀ r < worldsize, displs r = displ r * size
  inside : ∀ r < worldsize, displ r + count r ≤ length
  fits : ∀ r < worldsize, count r ≤ lengths r
  apart : ∀ r s, r < s → s < worldsize → displ r + count r ≤ displ s ∨ displ s + count s ≤ displ r

/-- What is documented about the operations. -/
structure Documented (ops : Operations V) : Prop where
  scatterv : ∀ {worldsize size : ℕ} {sendbuf : List V} {sendcnts displs : ℕ → ℤ} {recvbuf : ℕ → List V} {count displ : ℕ → ℕ},
    0 < size → Blocks worldsize size sendbuf.length (fun r => (recvbuf r).length) sendcnts displs count displ →
      ∃ out, ops.scatterv worldsize size sendbuf sendcnts displs recvbuf = some out ∧
        ∀ r < worldsize, out r = (sendbuf.drop (displ r)).take (count r) ++ (recvbuf r).drop (count r)
  gatherv : ∀ {worldsize size : ℕ} {sendbuf : ℕ → List V} {recvcnts displs : ℕ → ℤ} {recvbuf : List V} {count displ : ℕ → ℕ},
    0 < size → Blocks worldsize size recvbuf.length (fun r => (sendbuf r).length) recvcnts displs count displ →
      ∃ out, ops.gatherv worldsize size sendbuf recvcnts displs recvbuf = some out ∧ out.length = recvbuf.length ∧
        (∀ r < worldsize, ∀ k < count r, out[displ r + k]? = (sendbuf r)[k]?) ∧
          ∀ i, (∀ r < worldsize, ¬ (displ r ≤ i ∧ i < displ r + count r)) → out[i]? = recvbuf[i]?

/-! ## Operations that do what is documented -/

/-- The buffer with other elements from one on. -/
def splice (buf : List V) (i : ℕ) (xs : List V) : List V := buf.take i ++ xs ++ buf.drop (i + xs.length)

def copying : Operations V where
  scatterv worldsize size sendbuf sendcnts displs recvbuf := some fun r =>
    if r < worldsize then splice (recvbuf r) 0 ((sendbuf.drop (displs r / size).toNat).take (sendcnts r / size).toNat) else recvbuf r
  gatherv worldsize size sendbuf recvcnts displs recvbuf := some ((List.range worldsize).foldl
    (fun buf r => splice buf (displs r / size).toNat ((sendbuf r).take (recvcnts r / size).toNat)) recvbuf)

theorem length_splice {buf xs : List V} {i : ℕ} (h : i + xs.length ≤ buf.length) : (splice buf i xs).length = buf.length := by
  rw [splice, List.length_append, List.length_append, List.length_take, List.length_drop]
  omega

theorem getElem?_splice {buf xs : List V} {i : ℕ} (h : i + xs.length ≤ buf.length) (k : ℕ) :
    (splice buf i xs)[k]? = if i ≤ k ∧ k < i + xs.length then xs[k - i]? else buf[k]? := by
  have htake : (buf.take i).length = i := by
    rw [List.length_take]
    omega
  rw [splice, List.append_assoc]
  split
  · next hin =>
    rw [List.getElem?_append_right (by omega), htake, List.getElem?_append_left (by omega)]
  · next hout =>
    by_cases hlt : k < i
    · rw [List.getElem?_append_left (by omega), List.getElem?_take_of_lt hlt]
    · rw [List.getElem?_append_right (by omega), htake, List.getElem?_append_right (by omega), List.getElem?_drop]
      congr 1
      omega

section
variable {worldsize size length : ℕ} {lengths : ℕ → ℕ} {counts displs : ℕ → ℤ} {count displ : ℕ → ℕ}

theorem Blocks.elements (h : Blocks worldsize size length lengths counts displs count displ) (hsize : 0 < size) {r : ℕ}
    (hr : r < worldsize) : (counts r / size).toNat = count r ∧ (displs r / size).toNat = displ r := by
  have hpos : (size : ℤ) ≠ 0 := by exact_mod_cast hsize.ne'
  rw [h.counts r hr, h.displs r hr, Int.mul_ediv_cancel _ hpos, Int.mul_ediv_cancel _ hpos]
  exact ⟨Int.toNat_natCast _, Int.toNat_natCast _⟩

/-- The buffer of the root with the blocks of the first `n` processes. -/
def spliceBlocks (sendbuf : ℕ → List V) (count displ : ℕ → ℕ) (recvbuf : List V) (n : ℕ) : List V :=
  (List.range n).foldl (fun buf r => splice buf (displ r) ((sendbuf r).take (count r))) recvbuf

theorem spliceBlocks_succ (sendbuf : ℕ → List V) (count displ : ℕ → ℕ) (recvbuf : List V) (n : ℕ) :
    spliceBlocks sendbuf count displ recvbuf (n + 1) =
      splice (spliceBlocks sendbuf count displ recvbuf n) (displ n) ((sendbuf n).take (count n)) := by
  rw [spliceBlocks, List.range_succ, List.foldl_append]
  rfl

/-- Each process has its block, and what is in no block is as it was. -/
theorem spliceBlocks_spec {sendbuf : ℕ → List V} {recvbuf : List V}
    (h : Blocks worldsize size recvbuf.length (fun r => (sendbuf r).length) counts displs count displ) {n : ℕ} (hn : n ≤ worldsize) :
    (spliceBlocks sendbuf count displ recvbuf n).length = recvbuf.length ∧
    (∀ r < n, ∀ k < count r, (spliceBlocks sendbuf count displ recvbuf n)[displ r + k]? = (sendbuf r)[k]?) ∧
    ∀ i, (∀ r < n, ¬ (displ r ≤ i ∧ i < displ r + count r)) → (spliceBlocks sendbuf count displ recvbuf n)[i]? = recvbuf[i]? := by
  induction n with
  | zero => exact ⟨rfl, fun r hr => absurd hr (Nat.not_lt_zero r), fun i _ => rfl⟩
  | succ n ih =>
    obtain ⟨hlength, hblocks, hrest⟩ := ih (Nat.le_of_succ_le hn)
    have htake : ((sendbuf n).take (count n)).length = count n := by
      rw [List.length_take]
      exact Nat.min_eq_left (h.fits n hn)
    have hroom : displ n + ((sendbuf n).take (count n)).length ≤ (spliceBlocks sendbuf count displ recvbuf n).length := by
      rw [htake, hlength]
      exact h.inside n hn
    rw [spliceBlocks_succ]
    refine ⟨(length_splice hroom).trans hlength, fun r hr k hk => ?_, fun i hi => ?_⟩
    · rw [getElem?_splice hroom, htake]
      obtain rfl | hlt := Nat.eq_or_lt_of_le (Nat.le_of_lt_succ hr)
      · rw [if_pos ⟨Nat.le_add_right _ _, Nat.add_lt_add_left hk _⟩, Nat.add_sub_cancel_left, List.getElem?_take_of_lt hk]
      · rw [if_neg, hblocks r hlt k hk]
        -- the last block has nothing of an earlier one
        obtain hbefore | hbehind := h.apart r n hlt hn
        · omega
        · omega
    · rw [getElem?_splice hroom, htake, if_neg (hi n (Nat.lt_succ_self n)), hrest i fun r hr => hi r (Nat.lt_succ_of_lt hr)]

end

theorem documented_copying : Documented (copying : Operations V) where
  scatterv {worldsize size sendbuf sendcnts displs recvbuf count displ} hsize h := by
    refine ⟨_, rfl, fun r hr => ?_⟩
    obtain ⟨hcount, hdispl⟩ := h.elements hsize hr
    have htake : ((sendbuf.drop (displ r)).take (count r)).length = count r := by
      have hinside := h.inside r hr
      rw [List.length_take, List.length_drop]
      omega
    rw [if_pos hr, hcount, hdispl, splice, htake, List.take_zero, List.nil_append, Nat.zero_add]
  gatherv {worldsize size sendbuf recvcnts displs recvbuf count displ} hsize h := by
    have hsame : (List.range worldsize).foldl (fun buf r => splice buf (displs r / size).toNat
        ((sendbuf r).take (recvcnts r / size).toNat)) recvbuf = spliceBlocks sendbuf count displ recvbuf worldsize := by
      apply List.foldl_ext
      intro buf r hr
      obtain ⟨hcount, hdispl⟩ := h.elements hsize (List.mem_range.mp hr)
      rw [hcount, hdispl]
    refine ⟨_, rfl, ?_⟩
    rw [hsame]
    exact spliceBlocks_spec h le_rfl

end Collectives
