import Mathlib.Algebra.Order.Ring.Int
import Mathlib.Tactic.Ring
import Mathlib.Tactic.Linarith

/-! # Two's-complement `int` and truncating division

A wider integer is narrowed to 32 bits by `toInt32` (reduction modulo `2^32` into
`[-2^31, 2^31)`); `/` and `%` truncate towards zero (`Int.tdiv`, `Int.tmod`). For a nonnegative
dividend the truncating operations are the Euclidean ones, and a number is determined by its
quotient and its remainder (`quot_rem_unique`). -/
namespace CInt
set_option autoImplicit false

/-- Narrowing conversion to a 32-bit signed integer. -/
def toInt32 (x : ℤ) : ℤ := Int.bmod x 4294967296

/-- The values a 32-bit signed integer holds. -/
def FitsInt32 (x : ℤ) : Prop := -2147483648 ≤ x ∧ x < 2147483648

instance (x : ℤ) : Decidable (FitsInt32 x) := inferInstanceAs (Decidable (_ ∧ _))

theorem toInt32_of_fits {x : ℤ} (h : FitsInt32 x) : toInt32 x = x := by
  obtain ⟨hlo, hhi⟩ := h
  unfold toInt32
  exact Int.bmod_eq_of_le (by omega) (by omega)

/-- Narrowing changes a number by a multiple of `2^32`. -/
theorem toInt32_emod (x : ℤ) : toInt32 x % 4294967296 = x % 4294967296 := by
  exact Int.bmod_emod

/-- Narrowing depends on the remainder only. -/
theorem toInt32_congr {x y : ℤ} (h : x % 4294967296 = y % 4294967296) : toInt32 x = toInt32 y := by
  have hbmod : ∀ z : ℤ, (z % 4294967296).bmod 4294967296 = z.bmod 4294967296 := fun z =>
    Int.emod_bmod z 4294967296
  unfold toInt32
  rw [← hbmod x, h, hbmod y]

theorem fits_toInt32 (x : ℤ) : FitsInt32 (toInt32 x) := by
  unfold FitsInt32 toInt32
  have hle := Int.le_bmod (x := x) (m := 4294967296) (by decide)
  have hlt := Int.bmod_lt (x := x) (m := 4294967296) (by decide)
  omega

theorem toInt32_eq_self_iff {x : ℤ} : toInt32 x = x ↔ FitsInt32 x := by
  constructor
  · intro h
    rw [← h]
    exact fits_toInt32 x
  · exact toInt32_of_fits

/-- Two ways of writing one number as `g * quotient + remainder` with a proper remainder agree. -/
theorem quot_rem_unique {g x y r s : ℤ} (hg : 0 < g) (hr : 0 ≤ r ∧ r < g) (hs : 0 ≤ s ∧ s < g)
    (h : g * x + r = g * y + s) : x = y ∧ r = s := by
  have hx : (g * x + r) / g = x := by
    rw [Int.mul_add_ediv_left _ _ hg.ne', Int.ediv_eq_zero_of_lt hr.1 hr.2, Int.add_zero]
  have hy : (g * y + s) / g = y := by
    rw [Int.mul_add_ediv_left _ _ hg.ne', Int.ediv_eq_zero_of_lt hs.1 hs.2, Int.add_zero]
  have hxy : x = y := by rw [← hx, h, hy]
  subst hxy
  exact ⟨rfl, by omega⟩

end CInt
