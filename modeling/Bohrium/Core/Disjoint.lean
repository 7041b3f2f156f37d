import Bohrium.Core.View

/-! # The overlap test

`bh_view_disjoint` and the `gcd` it calls (`core/bh.cpp`), with their `int` variables: starts and
strides are narrowed to 32 bits, divisions truncate. The loop compares, dimension by dimension, the
ranges that the two starts span with that dimension's own strides, and then keeps only the
remainders of the starts; it never asks whether the later dimensions can carry into the current
one. `Apart` is that comparison at one dimension, `Nested` the layouts in which nothing carries that
could make it wrong. -/
namespace Bohrium
open CInt Strided
set_option autoImplicit false

/-! ## The source functions -/

/-- `while (c != 0) { a = b; b = c; c = a % b; }`. The divisor shrinks, so `|b|` rounds of fuel
are enough (`gcdLoop_spec`). -/
def gcdLoop : ℕ → ℤ → ℤ → ℤ
  | 0, _, b => b
  | fuel + 1, a, b => if a.tmod b = 0 then b else gcdLoop fuel b (a.tmod b)

/-- `gcd`; its sign is the one the truncating remainders leave. -/
def gcd (a b : ℤ) : ℤ := if b = 0 then a else gcdLoop b.natAbs a b

/-- The local `stride` of one dimension. -/
def dimGcd (x : Dim × Dim) : ℤ := gcd (toInt32 x.1.stride) (toInt32 x.2.stride)

/-- `ae` and `be`: one step past the range a start spans along a dimension. -/
def rangeEnd (p g : ℤ) (d : Dim) : ℤ := toInt32 (p.tdiv g + d.shape * d.stride.tdiv g)

/-- The loop over the dimensions; `none` is its `return true`, otherwise the last `stride`. -/
def disjointLoop (astart bstart stride : ℤ) : List (Dim × Dim) → Option ℤ
  | [] => some stride
  | x :: xs =>
    let g := dimGcd x
    if g = 0 then disjointLoop astart bstart g xs
    else if rangeEnd astart g x.1 < bstart.tdiv g ∨ rangeEnd bstart g x.2 < astart.tdiv g then none
    else disjointLoop (astart.tmod g) (bstart.tmod g) g xs

/-- `bh_view_disjoint`. -/
def bhViewDisjoint (a b : BhView) : Bool :=
  if bhIsConstant a || bhIsConstant b then true
  else if a.base ≠ b.base then true
  else if a.ndim ≠ b.ndim then false
  else
    match disjointLoop (toInt32 a.start) (toInt32 b.start) 1 (a.dims.zip b.dims) with
    | none => true
    | some g => decide (1 < g) && a.start.tmod g != b.start.tmod g

theorem bhViewDisjoint_of_constant_left {a : BhView} (b : BhView) (h : bhIsConstant a = true) :
    bhViewDisjoint a b = true := by
  simp [bhViewDisjoint, h]

theorem bhViewDisjoint_of_base_ne {a b : BhView} (h : a.base ≠ b.base) :
    bhViewDisjoint a b = true := by
  simp [bhViewDisjoint, h]

/-- A "disjoint" answer is truthful when the views really share no location. -/
def Truthful (a b : BhView) : Prop := bhViewDisjoint a b = true → ¬ BhView.Overlap a b

instance (a b : BhView) : Decidable (Truthful a b) :=
  inferInstanceAs (Decidable (bhViewDisjoint a b = true → ¬ BhView.Overlap a b))

/-! ## The greatest common divisor -/

theorem gcdLoop_spec (fuel : ℕ) (a b : ℤ) (hb : b ≠ 0) (hf : b.natAbs ≤ fuel) :
    gcdLoop fuel a b ≠ 0 ∧ gcdLoop fuel a b ∣ a ∧ gcdLoop fuel a b ∣ b ∧
      (0 ≤ a → 0 ≤ b → 0 ≤ gcdLoop fuel a b) := by
  induction fuel generalizing a b with
  | zero => omega
  | succ fuel ih =>
    rw [gcdLoop]
    split_ifs with hc
    · exact ⟨hb, Int.dvd_of_tmod_eq_zero hc, dvd_refl b, fun _ h => h⟩
    · have hlt : (a.tmod b).natAbs < b.natAbs := by
        rw [Int.natAbs_tmod]
        exact Nat.mod_lt _ (Int.natAbs_pos.mpr hb)
      obtain ⟨hne, hgb, hgc, hpos⟩ := ih b (a.tmod b) hc (by omega)
      have hga : gcdLoop fuel b (a.tmod b) ∣ b * a.tdiv b + a.tmod b :=
        dvd_add (hgb.mul_right _) hgc
      rw [Int.mul_tdiv_add_tmod] at hga
      exact ⟨hne, hga, hgb, fun ha hb0 => hpos hb0 (Int.tmod_nonneg b ha)⟩

theorem dvd_gcdLoop {fuel : ℕ} {d a b : ℤ} (ha : d ∣ a) (hb : d ∣ b) : d ∣ gcdLoop fuel a b := by
  induction fuel generalizing a b with
  | zero => exact hb
  | succ fuel ih =>
    rw [gcdLoop]
    split_ifs with hc
    · exact hb
    · refine ih hb ?_
      rw [Int.tmod_def]
      exact dvd_sub ha (hb.mul_right _)

theorem natAbs_gcd (a b : ℤ) : (gcd a b).natAbs = Int.gcd a b := by
  unfold gcd
  split_ifs with hb
  · rw [hb, Int.gcd_zero_right]
  · obtain ⟨_, hga, hgb, _⟩ := gcdLoop_spec _ a b hb le_rfl
    apply Nat.dvd_antisymm
    · exact Nat.dvd_gcd (Int.natAbs_dvd_natAbs.mpr hga) (Int.natAbs_dvd_natAbs.mpr hgb)
    · exact Int.natCast_dvd.mp (dvd_gcdLoop (Int.gcd_dvd_left a b) (Int.gcd_dvd_right a b))

theorem gcdLoop_neg (fuel : ℕ) (a b : ℤ) : gcdLoop fuel (-a) (-b) = -gcdLoop fuel a b := by
  induction fuel generalizing a b with
  | zero => rfl
  | succ fuel ih =>
    simp only [gcdLoop, Int.tmod_neg, Int.neg_tmod, neg_eq_zero]
    split_ifs
    · rfl
    · exact ih b _

theorem gcd_neg (a b : ℤ) : gcd (-a) (-b) = -gcd a b := by
  simp only [gcd, neg_eq_zero, Int.natAbs_neg, gcdLoop_neg]
  split_ifs <;> rfl

theorem gcd_nonneg {a b : ℤ} (ha : 0 ≤ a) (hb0 : 0 ≤ b) : 0 ≤ gcd a b := by
  unfold gcd
  split_ifs with hb
  · exact ha
  · exact (gcdLoop_spec _ a b hb le_rfl).2.2.2 ha hb0

/-! ## What the loop answers -/

/-- At one dimension the ranges of the two starts do not touch. -/
def Apart (p q : ℤ) (x : Dim × Dim) : Prop :=
  dimGcd x ≠ 0 ∧ (rangeEnd p (dimGcd x) x.1 < q.tdiv (dimGcd x) ∨
    rangeEnd q (dimGcd x) x.2 < p.tdiv (dimGcd x))

/-- A start after the remainders of the dimensions already compared. -/
def reduceStart (p : ℤ) : List (Dim × Dim) → ℤ
  | [] => p
  | x :: xs => reduceStart (if dimGcd x = 0 then p else p.tmod (dimGcd x)) xs

/-- The `stride` the loop ends with: that of the last dimension. -/
def lastStride (stride : ℤ) : List (Dim × Dim) → ℤ
  | [] => stride
  | x :: xs => lastStride (dimGcd x) xs

/-- Some dimension looks apart, with the starts reduced by the dimensions before it. -/
def SomeApart (p q : ℤ) (xs : List (Dim × Dim)) : Prop :=
  ∃ pre x post, xs = pre ++ x :: post ∧ Apart (reduceStart p pre) (reduceStart q pre) x

theorem not_someApart_nil (p q : ℤ) : ¬ SomeApart p q [] := by
  rintro ⟨pre, x, post, h, _⟩
  simp at h

theorem someApart_cons (p q : ℤ) (x : Dim × Dim) (xs : List (Dim × Dim)) :
    SomeApart p q (x :: xs) ↔
      Apart p q x ∨ SomeApart (reduceStart p [x]) (reduceStart q [x]) xs := by
  constructor
  · rintro ⟨pre, y, post, h, hy⟩
    cases pre with
    | nil =>
      obtain ⟨rfl, rfl⟩ := List.cons.inj h
      exact Or.inl hy
    | cons z pre =>
      obtain ⟨rfl, rfl⟩ := List.cons.inj h
      exact Or.inr ⟨pre, y, post, rfl, hy⟩
  · rintro (h | ⟨pre, y, post, rfl, hy⟩)
    · exact ⟨[], x, xs, rfl, h⟩
    · exact ⟨x :: pre, y, post, rfl, hy⟩

open Classical in
theorem disjointLoop_eq (p q stride : ℤ) (xs : List (Dim × Dim)) :
    disjointLoop p q stride xs = if SomeApart p q xs then none else some (lastStride stride xs) := by
  induction xs generalizing p q stride with
  | nil => rw [disjointLoop, if_neg (not_someApart_nil p q), lastStride]
  | cons x xs ih =>
    rw [disjointLoop, lastStride]
    simp only [someApart_cons, reduceStart]
    by_cases hg : dimGcd x = 0
    · have hna : ¬ Apart p q x := fun h => h.1 hg
      simp only [hg, if_true, ih, hna, false_or]
    · by_cases hap : rangeEnd p (dimGcd x) x.1 < q.tdiv (dimGcd x) ∨
          rangeEnd q (dimGcd x) x.2 < p.tdiv (dimGcd x)
      · have ha : Apart p q x := ⟨hg, hap⟩
        simp only [hg, if_false, hap, if_true, ha, true_or]
      · have hna : ¬ Apart p q x := fun h => hap h.2
        simp only [hg, if_false, hap, ih, hna, false_or]

/-- For two views of one base and equal rank the answer is `true` exactly when some dimension looks
apart or the starts differ modulo the last dimension's `stride`. -/
theorem bhViewDisjoint_eq_true_iff (base : BhBase) (s t : ℤ) (ds es : List Dim)
    (hlen : ds.length = es.length) :
    bhViewDisjoint ⟨some base, s, ds⟩ ⟨some base, t, es⟩ = true ↔
      SomeApart (toInt32 s) (toInt32 t) (ds.zip es) ∨
        (1 < lastStride 1 (ds.zip es) ∧
          s.tmod (lastStride 1 (ds.zip es)) ≠ t.tmod (lastStride 1 (ds.zip es))) := by
  simp only [bhViewDisjoint, bhIsConstant, Option.isNone_some, Bool.or_self, Bool.false_eq_true,
    if_false, ne_eq, not_true_eq_false, BhView.ndim, hlen, disjointLoop_eq]
  by_cases h : SomeApart (toInt32 s) (toInt32 t) (ds.zip es)
  · simp [h]
  · simp [h]

/-! ## Layouts in which nothing carries -/

/-- The displacement of the lowest element. -/
def lowest (ds : List Dim) : ℤ := (ds.map fun d => min 0 (((d.shape : ℤ) - 1) * d.stride)).sum

/-- The displacement of the highest element. -/
def highest (ds : List Dim) : ℤ := (ds.map fun d => max 0 (((d.shape : ℤ) - 1) * d.stride)).sum

/-- The stride, and one step past the range that a start spans, are in the range of `int`. -/
def StepsFit (p : ℤ) (d : Dim) : Prop := |d.stride| < 2147483648 ∧ p + d.shape * |d.stride| < 2147483648

/-- The strides of a dimension do not point in opposite directions. -/
def SameDirection (x : Dim × Dim) : Prop :=
  0 ≤ x.1.stride ∧ 0 ≤ x.2.stride ∨ x.1.stride ≤ 0 ∧ x.2.stride ≤ 0

/-- What is left of a start, plus all later dimensions, stays within one step. -/
def NoCarry (g p : ℤ) (ds : List Dim) : Prop := 0 ≤ p % g + lowest ds ∧ p % g + highest ds < g

/-- In each dimension the strides fit and have one direction, and what is left of the starts is equal, or the
later dimensions of neither view carry into this one. -/
def Nested (p q : ℤ) : List (Dim × Dim) → Prop
  | [] => True
  | x :: xs =>
    let g : ℤ := Int.gcd x.1.stride x.2.stride
    SameDirection x ∧ StepsFit p x.1 ∧ StepsFit q x.2 ∧
    (g ≠ 0 → p = q ∨ NoCarry g p (xs.map Prod.fst) ∧ NoCarry g q (xs.map Prod.snd)) ∧
    Nested (p % g) (q % g) xs

instance (p : ℤ) (d : Dim) : Decidable (StepsFit p d) := inferInstanceAs (Decidable (_ ∧ _))

instance (x : Dim × Dim) : Decidable (SameDirection x) := inferInstanceAs (Decidable (_ ∨ _))

instance (g p : ℤ) (ds : List Dim) : Decidable (NoCarry g p ds) := inferInstanceAs (Decidable (_ ∧ _))

instance decidableNested (p q : ℤ) : (xs : List (Dim × Dim)) → Decidable (Nested p q xs)
  | [] => .isTrue trivial
  | x :: xs =>
    let _ := decidableNested (p % Int.gcd x.1.stride x.2.stride) (q % Int.gcd x.1.stride x.2.stride) xs
    inferInstanceAs (Decidable (_ ∧ _ ∧ _ ∧ _ ∧ _))

theorem mem_offsets_bounds {s o : ℤ} {ds : List Dim} (ho : o ∈ Strided.offsets s ds) :
    s + lowest ds ≤ o ∧ o ≤ s + highest ds := by
  induction ds generalizing s with
  | nil =>
    rw [offsets_nil, List.mem_singleton] at ho
    simp [lowest, highest, ho]
  | cons d ds ih =>
    obtain ⟨i, hi, hoi⟩ := mem_offsets_cons.mp ho
    obtain ⟨hlo, hhi⟩ := ih hoi
    have hl : lowest (d :: ds) = min 0 (((d.shape : ℤ) - 1) * d.stride) + lowest ds := by simp [lowest]
    have hh : highest (d :: ds) = max 0 (((d.shape : ℤ) - 1) * d.stride) + highest ds := by simp [highest]
    have hi0 : (0 : ℤ) ≤ i := Int.natCast_nonneg i
    have hi1 : (i : ℤ) ≤ (d.shape : ℤ) - 1 := by omega
    rcases le_total 0 d.stride with hd | hd
    · have h1 := mul_nonneg hi0 hd
      have h2 := mul_le_mul_of_nonneg_right hi1 hd
      omega
    · have h1 := mul_nonpos_of_nonneg_of_nonpos hi0 hd
      have h2 := mul_le_mul_of_nonpos_right hi1 hd
      omega

theorem mem_offsets_shift {s o : ℤ} {ds : List Dim} (c : ℤ) (ho : o ∈ Strided.offsets s ds) :
    o - c ∈ Strided.offsets (s - c) ds := by
  obtain ⟨idx, hidx, rfl⟩ := List.mem_map.mp ho
  exact List.mem_map.mpr ⟨idx, hidx, by ring⟩

theorem mem_offsets_emod {s o g : ℤ} {ds : List Dim} (hg : ∀ d ∈ ds, g ∣ d.stride)
    (ho : o ∈ Strided.offsets s ds) : o % g = s % g := by
  induction ds generalizing s with
  | nil =>
    rw [offsets_nil, List.mem_singleton] at ho
    rw [ho]
  | cons d ds ih =>
    obtain ⟨i, _, hoi⟩ := mem_offsets_cons.mp ho
    rw [ih (fun e he => hg e (List.mem_cons_of_mem d he)) hoi]
    obtain ⟨k, hk⟩ := hg d List.mem_cons_self
    rw [hk, show s + (i : ℤ) * (g * k) = s + g * (i * k) by ring, Int.add_mul_emod_self_left]

section
variable {p q : ℤ} {x : Dim × Dim}

/-- Where the strides have one direction, the sign of the local `stride` is theirs. -/
theorem dimGcd_eq (hdir : SameDirection x) (h1 : StepsFit p x.1) (h2 : StepsFit q x.2) :
    dimGcd x = Int.gcd x.1.stride x.2.stride ∧ 0 ≤ x.1.stride ∧ 0 ≤ x.2.stride ∨
      dimGcd x = -Int.gcd x.1.stride x.2.stride ∧ x.1.stride ≤ 0 ∧ x.2.stride ≤ 0 := by
  have e1 : toInt32 x.1.stride = x.1.stride := toInt32_of_fits ⟨(abs_lt.mp h1.1).1.le, (abs_lt.mp h1.1).2⟩
  have e2 : toInt32 x.2.stride = x.2.stride := toInt32_of_fits ⟨(abs_lt.mp h2.1).1.le, (abs_lt.mp h2.1).2⟩
  rw [dimGcd, e1, e2, ← natAbs_gcd]
  rcases hdir with ⟨ha, hb⟩ | ⟨ha, hb⟩
  · exact Or.inl ⟨(Int.natAbs_of_nonneg (gcd_nonneg ha hb)).symm, ha, hb⟩
  · have hneg : 0 ≤ gcd (-x.1.stride) (-x.2.stride) := gcd_nonneg (neg_nonneg.mpr ha) (neg_nonneg.mpr hb)
    rw [gcd_neg] at hneg
    exact Or.inr ⟨by omega, ha, hb⟩

theorem rangeEnd_of_nonneg {g : ℤ} {d : Dim} (hp : 0 ≤ p) (hg : 0 < g) (hd : 0 ≤ d.stride) (hfit : StepsFit p d) :
    rangeEnd p g d = p / g + d.shape * (d.stride / g) := by
  have hfit := hfit.2
  rw [abs_of_nonneg hd] at hfit
  have hpos : 0 ≤ (d.shape : ℤ) * (d.stride / g) := mul_nonneg (Int.natCast_nonneg _) (Int.ediv_nonneg hd hg.le)
  have hle : (d.shape : ℤ) * (d.stride / g) ≤ d.shape * d.stride :=
    mul_le_mul_of_nonneg_left (Int.ediv_le_self g hd) (Int.natCast_nonneg _)
  have h0 : 0 ≤ p / g := Int.ediv_nonneg hp hg.le
  have h1 : p / g ≤ p := Int.ediv_le_self g hp
  rw [rangeEnd, Int.tdiv_eq_ediv_of_nonneg hp, Int.tdiv_eq_ediv_of_nonneg hd, toInt32_of_fits ⟨by omega, by omega⟩]

/-- The same with a negative divisor: the range is mirrored. -/
theorem rangeEnd_of_nonpos {g : ℤ} {d : Dim} (hp : 0 ≤ p) (hg : 0 < g) (hd : d.stride ≤ 0) (hfit : StepsFit p d) :
    rangeEnd p (-g) d = -(p / g) + d.shape * (-d.stride / g) := by
  have hfit := hfit.2
  rw [abs_of_nonpos hd] at hfit
  have hd' : 0 ≤ -d.stride := neg_nonneg.mpr hd
  have hpos : 0 ≤ (d.shape : ℤ) * (-d.stride / g) := mul_nonneg (Int.natCast_nonneg _) (Int.ediv_nonneg hd' hg.le)
  have hle : (d.shape : ℤ) * (-d.stride / g) ≤ d.shape * -d.stride :=
    mul_le_mul_of_nonneg_left (Int.ediv_le_self g hd') (Int.natCast_nonneg _)
  have hmul : 0 ≤ (d.shape : ℤ) * -d.stride := mul_nonneg (Int.natCast_nonneg _) hd'
  have h0 : 0 ≤ p / g := Int.ediv_nonneg hp hg.le
  have h1 : p / g ≤ p := Int.ediv_le_self g hp
  rw [rangeEnd, Int.tdiv_neg, Int.tdiv_neg, ← Int.neg_tdiv (a := d.stride), Int.tdiv_eq_ediv_of_nonneg hp,
    Int.tdiv_eq_ediv_of_nonneg hd', toInt32_of_fits ⟨by omega, by omega⟩]

/-- Starts that are equal, or ranges with a common step, touch. -/
theorem not_apart (hp : 0 ≤ p) (hq : 0 ≤ q) (hdir : SameDirection x) (h1 : StepsFit p x.1) (h2 : StepsFit q x.2)
    (htouch : p = q ∨ ∃ i < x.1.shape, ∃ j < x.2.shape, p / Int.gcd x.1.stride x.2.stride +
      (i : ℤ) * (x.1.stride / Int.gcd x.1.stride x.2.stride) = q / Int.gcd x.1.stride x.2.stride +
        (j : ℤ) * (x.2.stride / Int.gcd x.1.stride x.2.stride)) : ¬ Apart p q x := by
  rintro ⟨hne, hap⟩
  have hd1 := Int.gcd_dvd_left x.1.stride x.2.stride
  have hd2 := Int.gcd_dvd_right x.1.stride x.2.stride
  have hg0 : (0 : ℤ) ≤ Int.gcd x.1.stride x.2.stride := Int.natCast_nonneg _
  rcases dimGcd_eq hdir h1 h2 with ⟨hg, ha, hb⟩ | ⟨hg, ha, hb⟩
  all_goals
    rw [hg] at hne hap
    generalize (Int.gcd x.1.stride x.2.stride : ℤ) = g at hne hap htouch hd1 hd2 hg0
    have hpos : 0 < g := by omega
  · rw [rangeEnd_of_nonneg hp hpos ha h1, rangeEnd_of_nonneg hq hpos hb h2, Int.tdiv_eq_ediv_of_nonneg hp,
      Int.tdiv_eq_ediv_of_nonneg hq] at hap
    have hk : 0 ≤ x.1.stride / g := Int.ediv_nonneg ha hpos.le
    have hl : 0 ≤ x.2.stride / g := Int.ediv_nonneg hb hpos.le
    have hK : 0 ≤ (x.1.shape : ℤ) * (x.1.stride / g) := mul_nonneg (Int.natCast_nonneg _) hk
    have hL : 0 ≤ (x.2.shape : ℤ) * (x.2.stride / g) := mul_nonneg (Int.natCast_nonneg _) hl
    rcases htouch with rfl | ⟨i, hi, j, hj, heq⟩
    · omega
    · have hi' := mul_le_mul_of_nonneg_right (show (i : ℤ) ≤ x.1.shape by omega) hk
      have hj' := mul_le_mul_of_nonneg_right (show (j : ℤ) ≤ x.2.shape by omega) hl
      have hi0 := mul_nonneg (Int.natCast_nonneg i) hk
      have hj0 := mul_nonneg (Int.natCast_nonneg j) hl
      omega
  · rw [rangeEnd_of_nonpos hp hpos ha h1, rangeEnd_of_nonpos hq hpos hb h2, Int.tdiv_neg, Int.tdiv_neg,
      Int.tdiv_eq_ediv_of_nonneg hp, Int.tdiv_eq_ediv_of_nonneg hq] at hap
    have hk : 0 ≤ -x.1.stride / g := Int.ediv_nonneg (neg_nonneg.mpr ha) hpos.le
    have hl : 0 ≤ -x.2.stride / g := Int.ediv_nonneg (neg_nonneg.mpr hb) hpos.le
    have hK : 0 ≤ (x.1.shape : ℤ) * (-x.1.stride / g) := mul_nonneg (Int.natCast_nonneg _) hk
    have hL : 0 ≤ (x.2.shape : ℤ) * (-x.2.stride / g) := mul_nonneg (Int.natCast_nonneg _) hl
    rcases htouch with rfl | ⟨i, hi, j, hj, heq⟩
    · omega
    · have hi' := mul_le_mul_of_nonneg_right (show (i : ℤ) ≤ x.1.shape by omega) hk
      have hj' := mul_le_mul_of_nonneg_right (show (j : ℤ) ≤ x.2.shape by omega) hl
      have hi0 := mul_nonneg (Int.natCast_nonneg i) hk
      have hj0 := mul_nonneg (Int.natCast_nonneg j) hl
      simp only [Int.neg_ediv_of_dvd hd1, mul_neg] at hi' hi0 hap
      simp only [Int.neg_ediv_of_dvd hd2, mul_neg] at hj' hj0 hap
      omega

end

/-- One step of the division argument: a shared address has one quotient and one remainder. -/
theorem shared_quot_rem {g p q o sa sb ra rb : ℤ} {i j : ℕ} (hg : 0 < g) (hsa : g ∣ sa) (hsb : g ∣ sb)
    (ha : o = p + i * sa + ra) (hb : o = q + j * sb + rb)
    (hra : 0 ≤ p % g + ra ∧ p % g + ra < g) (hrb : 0 ≤ q % g + rb ∧ q % g + rb < g) :
    p / g + i * (sa / g) = q / g + j * (sb / g) ∧ p % g + ra = q % g + rb := by
  have hp := Int.mul_ediv_add_emod p g
  have hq := Int.mul_ediv_add_emod q g
  obtain ⟨k, rfl⟩ := hsa
  obtain ⟨l, rfl⟩ := hsb
  rw [Int.mul_ediv_cancel_left k hg.ne', Int.mul_ediv_cancel_left l hg.ne']
  refine quot_rem_unique hg hra hrb ?_
  calc g * (p / g + i * k) + (p % g + ra) = (g * (p / g) + p % g) + i * (g * k) + ra := by ring
    _ = (g * (q / g) + q % g) + j * (g * l) + rb := by rw [hp, hq, ← ha, ← hb]
    _ = g * (q / g + j * l) + (q % g + rb) := by ring

theorem reduceStart_singleton {p q r : ℤ} {x : Dim × Dim} (hr : 0 ≤ r) (hdir : SameDirection x)
    (h1 : StepsFit p x.1) (h2 : StepsFit q x.2) : reduceStart r [x] = r % Int.gcd x.1.stride x.2.stride := by
  rw [reduceStart, reduceStart]
  rcases dimGcd_eq hdir h1 h2 with ⟨hg, _, _⟩ | ⟨hg, _, _⟩
  · rw [hg, Int.tmod_eq_emod_of_nonneg hr]
    split_ifs with h0
    · rw [h0, Int.emod_zero]
    · rfl
  · rw [hg, Int.tmod_neg, Int.tmod_eq_emod_of_nonneg hr]
    split_ifs with h0
    · rw [neg_eq_zero.mp h0, Int.emod_zero]
    · rfl

/-- Nested layouts whose starts are equal, or which share an address, look apart in no dimension. -/
theorem Nested.not_someApart {p q : ℤ} {xs : List (Dim × Dim)} (h : Nested p q xs) (hp : 0 ≤ p) (hq : 0 ≤ q)
    (hshared : p = q ∨ ∃ o, o ∈ Strided.offsets p (xs.map Prod.fst) ∧ o ∈ Strided.offsets q (xs.map Prod.snd)) :
    ¬ SomeApart p q xs := by
  induction xs generalizing p q with
  | nil => exact not_someApart_nil p q
  | cons x xs ih =>
    obtain ⟨hdir, h1, h2, hcarry, hnest⟩ := h
    rw [someApart_cons, reduceStart_singleton hp hdir h1 h2, reduceStart_singleton hq hdir h1 h2]
    have hd1 := Int.gcd_dvd_left x.1.stride x.2.stride
    have hd2 := Int.gcd_dvd_right x.1.stride x.2.stride
    have hg0 : (0 : ℤ) ≤ Int.gcd x.1.stride x.2.stride := Int.natCast_nonneg _
    by_cases hg : (Int.gcd x.1.stride x.2.stride : ℤ) = 0
    · -- a virtual dimension: both strides are zero, nothing moves
      have z1 : x.1.stride = 0 := zero_dvd_iff.mp (hg ▸ hd1)
      have z2 : x.2.stride = 0 := zero_dvd_iff.mp (hg ▸ hd2)
      have hzero : dimGcd x = 0 := by
        rcases dimGcd_eq hdir h1 h2 with ⟨h, _⟩ | ⟨h, _⟩
        · rw [h, hg]
        · rw [h, hg, neg_zero]
      rw [hg, Int.emod_zero, Int.emod_zero] at hnest ⊢
      rintro (hap | hrest)
      · exact hap.1 hzero
      · refine ih hnest hp hq (hshared.imp_right ?_) hrest
        rintro ⟨o, ha, hb⟩
        obtain ⟨i, _, hoi⟩ := mem_offsets_cons.mp ha
        obtain ⟨j, _, hoj⟩ := mem_offsets_cons.mp hb
        rw [z1, mul_zero, add_zero] at hoi
        rw [z2, mul_zero, add_zero] at hoj
        exact ⟨o, hoi, hoj⟩
    · have hpos : (0 : ℤ) < Int.gcd x.1.stride x.2.stride := by omega
      have hp' := Int.emod_nonneg p hg
      have hq' := Int.emod_nonneg q hg
      by_cases heq : p = q
      · rintro (hap | hrest)
        · exact not_apart hp hq hdir h1 h2 (Or.inl heq) hap
        · exact ih hnest hp' hq' (Or.inl (by rw [heq])) hrest
      · obtain ⟨o, ha, hb⟩ := hshared.resolve_left heq
        obtain ⟨⟨lo1, hi1⟩, lo2, hi2⟩ := (hcarry hg).resolve_left heq
        obtain ⟨i, hi, hoi⟩ := mem_offsets_cons.mp ha
        obtain ⟨j, hj, hoj⟩ := mem_offsets_cons.mp hb
        have ba := mem_offsets_bounds hoi
        have bb := mem_offsets_bounds hoj
        have ea : o = p + i * x.1.stride + (o - (p + i * x.1.stride)) := by ring
        have eb : o = q + j * x.2.stride + (o - (q + j * x.2.stride)) := by ring
        obtain ⟨hquot, hrem⟩ := shared_quot_rem hpos hd1 hd2 ea eb ⟨by omega, by omega⟩ ⟨by omega, by omega⟩
        rintro (hap | hrest)
        · exact not_apart hp hq hdir h1 h2 (Or.inr ⟨i, hi, j, hj, hquot⟩) hap
        · -- the remainders of the starts share the remainder of the address
          have sa := mem_offsets_shift (p + i * x.1.stride - p % Int.gcd x.1.stride x.2.stride) hoi
          have sb := mem_offsets_shift (q + j * x.2.stride - q % Int.gcd x.1.stride x.2.stride) hoj
          rw [sub_sub_cancel] at sa sb
          refine ih hnest hp' hq' (Or.inr ⟨_, sa, ?_⟩) hrest
          convert sb using 1
          omega

/-! ## When the answer can be trusted -/

/-- The gcd of the strides of the last dimension. -/
def lastGcd (g : ℕ) : List (Dim × Dim) → ℕ
  | [] => g
  | x :: xs => lastGcd (Int.gcd x.1.stride x.2.stride) xs

/-- The gcd of the last dimension divides every stride, or the starts agree modulo it. -/
def LastAgrees (s t : ℤ) (ds es : List Dim) : Prop :=
  1 < lastGcd 1 (ds.zip es) → (∀ d ∈ ds ++ es, (lastGcd 1 (ds.zip es) : ℤ) ∣ d.stride) ∨
    s % lastGcd 1 (ds.zip es) = t % lastGcd 1 (ds.zip es)

/-- Starts in the range of `int`, nested dimensions, and a last one that tells nothing else. -/
def NestedLayouts (s t : ℤ) (ds es : List Dim) : Prop :=
  0 ≤ s ∧ s < 2147483648 ∧ 0 ≤ t ∧ t < 2147483648 ∧ Nested s t (ds.zip es) ∧ LastAgrees s t ds es

instance (s t : ℤ) (ds es : List Dim) : Decidable (NestedLayouts s t ds es) :=
  inferInstanceAs (Decidable (_ ∧ _ ∧ _ ∧ _ ∧ _ ∧ (_ → _)))

/-- The highest element of one view lies below the lowest one of the other. -/
def SpansApart (s t : ℤ) (ds es : List Dim) : Prop :=
  s + highest ds < t + lowest es ∨ t + highest es < s + lowest ds

/-- Some number divides every stride, and not the difference of the starts. -/
def ResiduesApart (s t : ℤ) (ds es : List Dim) : Prop := ∃ g : ℤ, (∀ d ∈ ds ++ es, g ∣ d.stride) ∧ ¬ g ∣ s - t

/-- The layouts that the overlap test tells apart rightly. -/
def Separable (s t : ℤ) (ds es : List Dim) : Prop :=
  ds.length ≠ es.length ∨ SpansApart s t ds es ∨ ResiduesApart s t ds es ∨ NestedLayouts s t ds es

theorem SpansApart.not_shared {s t o : ℤ} {ds es : List Dim} (h : SpansApart s t ds es)
    (ha : o ∈ Strided.offsets s ds) : o ∉ Strided.offsets t es := by
  intro hb
  have h1 := mem_offsets_bounds ha
  have h2 := mem_offsets_bounds hb
  unfold SpansApart at h
  omega

theorem ResiduesApart.not_shared {s t o : ℤ} {ds es : List Dim} (h : ResiduesApart s t ds es)
    (ha : o ∈ Strided.offsets s ds) : o ∉ Strided.offsets t es := by
  intro hb
  obtain ⟨g, hg, hne⟩ := h
  have h1 := mem_offsets_emod (fun d hd => hg d (List.mem_append_left es hd)) ha
  have h2 := mem_offsets_emod (fun d hd => hg d (List.mem_append_right ds hd)) hb
  exact hne (Int.dvd_of_emod_eq_zero (Int.emod_eq_emod_iff_emod_sub_eq_zero.mp (h1.symm.trans h2)))

theorem lastStride_eq {p q stride : ℤ} {g : ℕ} {xs : List (Dim × Dim)} (h : Nested p q xs)
    (hg : stride = g ∨ stride = -g) : lastStride stride xs = lastGcd g xs ∨ lastStride stride xs = -lastGcd g xs := by
  induction xs generalizing p q stride g with
  | nil => exact hg
  | cons x xs ih =>
    obtain ⟨hdir, h1, h2, _, hnest⟩ := h
    exact ih hnest ((dimGcd_eq hdir h1 h2).imp And.left And.left)

theorem NestedLayouts.not_disjoint {base : BhBase} {s t o : ℤ} {ds es : List Dim} (h : NestedLayouts s t ds es)
    (hlen : ds.length = es.length) (ha : o ∈ Strided.offsets s ds) (hb : o ∈ Strided.offsets t es) :
    ¬ bhViewDisjoint ⟨some base, s, ds⟩ ⟨some base, t, es⟩ = true := by
  obtain ⟨hs, hs', ht, ht', hn, hlast⟩ := h
  rw [bhViewDisjoint_eq_true_iff base s t ds es hlen, toInt32_of_fits ⟨by omega, hs'⟩, toInt32_of_fits ⟨by omega, ht'⟩]
  rintro (hap | ⟨h1, hne⟩)
  · refine hn.not_someApart hs ht (Or.inr ⟨o, ?_, ?_⟩) hap
    · rwa [List.map_fst_zip hlen.le]
    · rwa [List.map_snd_zip hlen.ge]
  · have hlg : lastStride 1 (ds.zip es) = lastGcd 1 (ds.zip es) := by
      rcases lastStride_eq hn (Or.inl rfl : (1 : ℤ) = (1 : ℕ) ∨ _) with h | h
      · exact h
      · omega
    rw [hlg] at h1 hne
    rw [Int.tmod_eq_emod_of_nonneg hs, Int.tmod_eq_emod_of_nonneg ht] at hne
    rcases hlast (by omega) with hdvd | heq
    · apply hne
      rw [← mem_offsets_emod (fun d hd => hdvd d (List.mem_append_left es hd)) ha,
        ← mem_offsets_emod (fun d hd => hdvd d (List.mem_append_right ds hd)) hb]
    · exact hne heq

/-- Of two views of one base with such layouts, the answer "disjoint" is right. -/
theorem bhViewDisjoint_sound (base : BhBase) (s t : ℤ) (ds es : List Dim) (h : Separable s t ds es)
    (hdis : bhViewDisjoint ⟨some base, s, ds⟩ ⟨some base, t, es⟩ = true) :
    ∀ o, o ∈ (BhView.mk (some base) s ds).offsets → o ∉ (BhView.mk (some base) t es).offsets := by
  intro o ha hb
  by_cases hlen : ds.length = es.length
  · rcases h with hne | hspan | hres | hnest
    · exact hne hlen
    · exact hspan.not_shared ha hb
    · exact hres.not_shared ha hb
    · exact hnest.not_disjoint hlen ha hb hdis
  · simp [bhViewDisjoint, bhIsConstant, BhView.ndim, hlen] at hdis

/-- The left and the right columns of rows, from the last row to the first: the first element of the left ones is
none of the right ones. -/
theorem bhViewDisjoint_sound_columns :
    bhViewDisjoint ⟨some ⟨0, .float64, 32⟩, 20, [⟨3, -10⟩, ⟨4, 1⟩]⟩ ⟨some ⟨0, .float64, 32⟩, 25, [⟨3, -10⟩, ⟨5, 1⟩]⟩ = true ∧
      (20 : ℤ) ∉ (BhView.mk (some ⟨0, .float64, 32⟩) 25 [⟨3, -10⟩, ⟨5, 1⟩]).offsets := by
  have hdis : bhViewDisjoint ⟨some ⟨0, .float64, 32⟩, 20, [⟨3, -10⟩, ⟨4, 1⟩]⟩
      ⟨some ⟨0, .float64, 32⟩, 25, [⟨3, -10⟩, ⟨5, 1⟩]⟩ = true := by decide
  have hnest : NestedLayouts 20 25 [⟨3, -10⟩, ⟨4, 1⟩] [⟨3, -10⟩, ⟨5, 1⟩] := by decide
  exact ⟨hdis, bhViewDisjoint_sound ⟨0, .float64, 32⟩ 20 25 _ _ (Or.inr (Or.inr (Or.inr hnest))) hdis 20 (by decide)⟩

/-- Where the answer "disjoint" is wrong: columns `0..1` and `1..2` of two rows that lie column by column; four
elements read backwards and the first two of them; three columns of two rows in steps of three, and the second
of these rows. -/
theorem bhViewDisjoint_shared :
    (bhViewDisjoint ⟨some ⟨0, .float64, 32⟩, 0, [⟨2, 1⟩, ⟨2, 10⟩]⟩
        ⟨some ⟨0, .float64, 32⟩, 10, [⟨2, 1⟩, ⟨2, 10⟩]⟩ = true ∧
      (10 : ℤ) ∈ (BhView.mk (some ⟨0, .float64, 32⟩) 0 [⟨2, 1⟩, ⟨2, 10⟩]).offsets ∧
      (10 : ℤ) ∈ (BhView.mk (some ⟨0, .float64, 32⟩) 10 [⟨2, 1⟩, ⟨2, 10⟩]).offsets ∧
      (BhView.mk (some ⟨0, .float64, 32⟩) 0 [⟨2, 1⟩, ⟨2, 10⟩]).InBase ∧
      (BhView.mk (some ⟨0, .float64, 32⟩) 10 [⟨2, 1⟩, ⟨2, 10⟩]).InBase) ∧
    (bhViewDisjoint ⟨some ⟨0, .float64, 4⟩, 3, [⟨4, -1⟩]⟩ ⟨some ⟨0, .float64, 4⟩, 0, [⟨2, 1⟩]⟩ = true ∧
      (1 : ℤ) ∈ (BhView.mk (some ⟨0, .float64, 4⟩) 3 [⟨4, -1⟩]).offsets ∧
      (1 : ℤ) ∈ (BhView.mk (some ⟨0, .float64, 4⟩) 0 [⟨2, 1⟩]).offsets ∧
      (BhView.mk (some ⟨0, .float64, 4⟩) 3 [⟨4, -1⟩]).InBase ∧ (BhView.mk (some ⟨0, .float64, 4⟩) 0 [⟨2, 1⟩]).InBase) ∧
    (bhViewDisjoint ⟨some ⟨0, .float64, 32⟩, 0, [⟨2, 10⟩, ⟨3, 3⟩]⟩ ⟨some ⟨0, .float64, 32⟩, 10, [⟨1, 10⟩, ⟨3, 3⟩]⟩ = true ∧
      (13 : ℤ) ∈ (BhView.mk (some ⟨0, .float64, 32⟩) 0 [⟨2, 10⟩, ⟨3, 3⟩]).offsets ∧
      (13 : ℤ) ∈ (BhView.mk (some ⟨0, .float64, 32⟩) 10 [⟨1, 10⟩, ⟨3, 3⟩]).offsets ∧
      (BhView.mk (some ⟨0, .float64, 32⟩) 0 [⟨2, 10⟩, ⟨3, 3⟩]).InBase ∧
      (BhView.mk (some ⟨0, .float64, 32⟩) 10 [⟨1, 10⟩, ⟨3, 3⟩]).InBase) := by
  refine ⟨⟨by decide, by decide, by decide, ⟨_, rfl, by decide⟩, ⟨_, rfl, by decide⟩⟩,
    ⟨by decide, by decide, by decide, ⟨_, rfl, by decide⟩, ⟨_, rfl, by decide⟩⟩,
    ⟨by decide, by decide, by decide, ⟨_, rfl, by decide⟩, ⟨_, rfl, by decide⟩⟩⟩

end Bohrium
