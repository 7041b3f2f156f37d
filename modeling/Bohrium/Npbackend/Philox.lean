import Bohrium.Npbackend.Random
import Mathlib.Data.Nat.ModEq
import Mathlib.Data.Finite.Prod
import Mathlib.Data.Fintype.EquivFin
import Mathlib.Data.Nat.Prime.Basic
import Mathlib.Data.BitVec
import Mathlib.Tactic.Linarith
import Mathlib.Tactic.Ring

/-! # Philox

The generator of `Random123/philox.h` behind `BH_RANDOM`: the templates for a word of any width, and what the
bridge draws with the instance of 32 bits. -/
namespace Bohrium.Npbackend.Philox
set_option autoImplicit false

/-! ## The product of two words -/

/-- `_mulhilo_dword_tpl`: the high and the low word. -/
def mulhilo {W : ℕ} (a b : BitVec W) : BitVec W × BitVec W :=
  let product := a.setWidth (W + W) * b.setWidth (W + W)
  ((product >>> W).setWidth W, product.setWidth W)

/-- `_mulhilo_c99_tpl`, with operations on words only; `h` is half a word. -/
def mulhiloC99 {h : ℕ} (a b : BitVec (h + h)) : BitVec (h + h) × BitVec (h + h) :=
  let lomask := (1#(h + h) <<< h) - 1
  let lo := a * b
  let ahi := a >>> h
  let alo := a &&& lomask
  let bhi := b >>> h
  let blo := b &&& lomask
  let ahbl := ahi * blo
  let albh := alo * bhi
  let ahbl_albh := (ahbl &&& lomask) + (albh &&& lomask)
  let hi := ahi * bhi + (ahbl >>> h) + (albh >>> h)
  let hi := hi + (ahbl_albh >>> h)
  let hi := hi + if lo >>> h < ahbl_albh &&& lomask then 1 else 0
  (hi, lo)

theorem toNat_mulhilo {W : ℕ} (a b : BitVec W) :
    (mulhilo a b).1.toNat = a.toNat * b.toNat / 2 ^ W ∧ (mulhilo a b).2.toNat = a.toNat * b.toNat % 2 ^ W := by
  have ha := a.isLt
  have hb := b.isLt
  have hle : W ≤ W + W := Nat.le_add_right _ _
  have hwide : ∀ x : BitVec W, (x.setWidth (W + W)).toNat = x.toNat := fun x => BitVec.toNat_setWidth_of_le hle
  have hproduct : a.toNat * b.toNat < 2 ^ (W + W) := by
    rw [Nat.pow_add]
    exact Nat.mul_lt_mul'' ha hb
  have hnat : (a.setWidth (W + W) * b.setWidth (W + W)).toNat = a.toNat * b.toNat := by
    rw [BitVec.toNat_mul, hwide, hwide, Nat.mod_eq_of_lt hproduct]
  constructor
  · show (((a.setWidth (W + W) * b.setWidth (W + W)) >>> W).setWidth W).toNat = _
    rw [BitVec.toNat_setWidth, BitVec.toNat_ushiftRight, hnat, Nat.shiftRight_eq_div_pow]
    apply Nat.mod_eq_of_lt
    rw [Nat.div_lt_iff_lt_mul (Nat.two_pow_pos W), ← Nat.pow_add]
    exact hproduct
  · show ((a.setWidth (W + W) * b.setWidth (W + W)).setWidth W).toNat = _
    rw [BitVec.toNat_setWidth, hnat]

/-- The carries of a product of numbers of two digits. -/
theorem high_digits {n x₁ x₀ y₁ y₀ : ℕ} (hn : 0 < n) (hx : x₀ < n) (hy : y₀ < n) :
    (x₁ * n + x₀) * (y₁ * n + y₀) / (n * n) = x₁ * y₁ + x₁ * y₀ / n + x₀ * y₁ / n + (x₁ * y₀ % n + x₀ * y₁ % n) / n +
      if (x₁ * n + x₀) * (y₁ * n + y₀) / n % n < (x₁ * y₀ % n + x₀ * y₁ % n) % n then 1 else 0 := by
  have hp := Nat.div_add_mod (x₁ * y₀) n
  have hq := Nat.div_add_mod (x₀ * y₁) n
  have hr := Nat.div_add_mod (x₀ * y₀) n
  generalize x₁ * y₀ / n = p₁ at *
  generalize x₁ * y₀ % n = p₀ at *
  generalize x₀ * y₁ / n = q₁ at *
  generalize x₀ * y₁ % n = q₀ at *
  have hs := Nat.div_add_mod (p₀ + q₀) n
  have hs₀ : (p₀ + q₀) % n < n := Nat.mod_lt _ hn
  generalize (p₀ + q₀) / n = s₁ at *
  generalize (p₀ + q₀) % n = s₀ at *
  have hr₁ : x₀ * y₀ / n < n := by
    rw [Nat.div_lt_iff_lt_mul hn]
    exact Nat.mul_lt_mul'' hx hy
  generalize x₀ * y₀ / n = r₁ at *
  have hexpand : (x₁ * n + x₀) * (y₁ * n + y₀) / n = (x₁ * y₁ + p₁ + q₁ + s₁) * n + (s₀ + r₁) := by
    have hsum : (x₁ * n + x₀) * (y₁ * n + y₀) = n * ((x₁ * y₁ + p₁ + q₁ + s₁) * n + (s₀ + r₁)) + x₀ * y₀ % n := by
      have hcross : (x₁ * n + x₀) * (y₁ * n + y₀) = n * n * (x₁ * y₁) + n * (x₁ * y₀) + n * (x₀ * y₁) + x₀ * y₀ := by ring
      calc (x₁ * n + x₀) * (y₁ * n + y₀) = n * n * (x₁ * y₁) + n * (n * p₁ + p₀) + n * (n * q₁ + q₀) + (n * r₁ + x₀ * y₀ % n) := by
            rw [hcross, hp, hq, hr]
        _ = n * n * (x₁ * y₁ + p₁ + q₁) + n * (p₀ + q₀) + n * r₁ + x₀ * y₀ % n := by ring
        _ = n * ((x₁ * y₁ + p₁ + q₁ + s₁) * n + (s₀ + r₁)) + x₀ * y₀ % n := by
            rw [← hs]
            ring
    rw [hsum, Nat.mul_add_div hn, Nat.div_eq_of_lt (Nat.mod_lt _ hn), Nat.add_zero]
  rw [← Nat.div_div_eq_div_mul, hexpand, Nat.mul_comm _ n, Nat.mul_add_div hn, Nat.mul_add_mod]
  by_cases hcarry : s₀ + r₁ < n
  · rw [Nat.div_eq_of_lt hcarry, Nat.mod_eq_of_lt hcarry, if_neg (by omega), Nat.add_zero]
  · have hdiv : (s₀ + r₁) / n = 1 := Nat.div_eq_of_lt_le (by omega) (by omega)
    have hmod : (s₀ + r₁) % n = s₀ + r₁ - n := by
      rw [Nat.mod_eq_sub_mod (by omega), Nat.mod_eq_of_lt (by omega)]
    rw [hdiv, hmod, if_pos (by omega)]

/-- A sum of words that fits. -/
theorem words_sum {m a b c d e : ℕ} (h : a + b + c + d + e < m) : ((((a + b) % m + c) % m + d) % m + e) % m = a + b + c + d + e := by
  rw [Nat.mod_eq_of_lt (show a + b < m by omega), Nat.mod_eq_of_lt (show a + b + c < m by omega),
    Nat.mod_eq_of_lt (show a + b + c + d < m by omega), Nat.mod_eq_of_lt h]

theorem toNat_and_lomask {h : ℕ} (a : BitVec (h + h)) : (a &&& ((1#(h + h) <<< h) - 1)).toNat = a.toNat % 2 ^ h := by
  have hmask : ((1#(h + h) <<< h) - 1 : BitVec (h + h)).toNat = 2 ^ h - 1 := by
    obtain rfl | hpos := Nat.eq_zero_or_pos h
    · rfl
    · have hlt : 2 ^ h < 2 ^ (h + h) := Nat.pow_lt_pow_right Nat.one_lt_two (by omega)
      have hone : (1#(h + h)).toNat = 1 := by
        rw [BitVec.toNat_ofNat, Nat.mod_eq_of_lt (Nat.one_lt_two_pow (by omega))]
      have hshift : (1#(h + h) <<< h).toNat = 2 ^ h := by
        rw [BitVec.toNat_shiftLeft, hone, Nat.shiftLeft_eq, Nat.one_mul, Nat.mod_eq_of_lt hlt]
      have hle : 1#(h + h) ≤ 1#(h + h) <<< h := by
        rw [BitVec.le_def, hone, hshift]
        exact Nat.one_le_two_pow
      show ((1#(h + h) <<< h) - 1#(h + h)).toNat = _
      rw [BitVec.toNat_sub_of_le hle, hshift, hone]
  rw [BitVec.toNat_and, hmask, Nat.and_two_pow_sub_one_eq_mod]

/-- The product from words only is the product, for words of any even width. -/
theorem mulhiloC99_eq {h : ℕ} (a b : BitVec (h + h)) : mulhiloC99 a b = mulhilo a b := by
  obtain ⟨hhi, hlo⟩ := toNat_mulhilo a b
  have hn : 0 < 2 ^ h := Nat.two_pow_pos h
  have hlow : (a * b).toNat = (mulhilo a b).2.toNat := by rw [BitVec.toNat_mul, hlo]
  refine Prod.ext (BitVec.eq_of_toNat_eq ?_) (BitVec.eq_of_toNat_eq hlow)
  have hshift : ∀ x : BitVec (h + h), (x >>> h).toNat = x.toNat / 2 ^ h := fun x => by
    rw [BitVec.toNat_ushiftRight, Nat.shiftRight_eq_div_pow]
  have hdigits : ∀ x : BitVec (h + h), x.toNat / 2 ^ h < 2 ^ h := fun x => by
    rw [Nat.div_lt_iff_lt_mul hn, ← Nat.pow_add]
    exact x.isLt
  have hsmall : ∀ {x y : ℕ}, x < 2 ^ h → y < 2 ^ h → x * y < 2 ^ (h + h) := fun hx hy => by
    rw [Nat.pow_add]
    exact Nat.mul_lt_mul'' hx hy
  have hmod : ∀ x : ℕ, x % 2 ^ h < 2 ^ h := fun x => Nat.mod_lt _ hn
  have hahbl : (a >>> h * (b &&& ((1#(h + h) <<< h) - 1))).toNat = a.toNat / 2 ^ h * (b.toNat % 2 ^ h) := by
    rw [BitVec.toNat_mul, hshift, toNat_and_lomask, Nat.mod_eq_of_lt (hsmall (hdigits a) (hmod _))]
  have halbh : ((a &&& ((1#(h + h) <<< h) - 1)) * b >>> h).toNat = a.toNat % 2 ^ h * (b.toNat / 2 ^ h) := by
    rw [BitVec.toNat_mul, hshift, toNat_and_lomask, Nat.mod_eq_of_lt (hsmall (hmod _) (hdigits b))]
  have hcross : ((a >>> h * (b &&& ((1#(h + h) <<< h) - 1)) &&& ((1#(h + h) <<< h) - 1)) +
      ((a &&& ((1#(h + h) <<< h) - 1)) * b >>> h &&& ((1#(h + h) <<< h) - 1))).toNat =
      a.toNat / 2 ^ h * (b.toNat % 2 ^ h) % 2 ^ h + a.toNat % 2 ^ h * (b.toNat / 2 ^ h) % 2 ^ h := by
    have hle : ∀ {x y : ℕ}, x < 2 ^ h → y < 2 ^ h → x + y < 2 ^ (h + h) := fun {x y} hx hy => by
      rw [Nat.pow_add]
      nlinarith
    rw [BitVec.toNat_add, toNat_and_lomask, toNat_and_lomask, hahbl, halbh, Nat.mod_eq_of_lt (hle (hmod _) (hmod _))]
  have hhigh : (a >>> h * b >>> h).toNat = a.toNat / 2 ^ h * (b.toNat / 2 ^ h) := by
    rw [BitVec.toNat_mul, hshift, hshift, Nat.mod_eq_of_lt (hsmall (hdigits a) (hdigits b))]
  have hlt : (a * b) >>> h < ((a >>> h * (b &&& ((1#(h + h) <<< h) - 1)) &&& ((1#(h + h) <<< h) - 1)) +
      ((a &&& ((1#(h + h) <<< h) - 1)) * b >>> h &&& ((1#(h + h) <<< h) - 1))) &&& ((1#(h + h) <<< h) - 1) ↔
      a.toNat * b.toNat / 2 ^ h % 2 ^ h <
        (a.toNat / 2 ^ h * (b.toNat % 2 ^ h) % 2 ^ h + a.toNat % 2 ^ h * (b.toNat / 2 ^ h) % 2 ^ h) % 2 ^ h := by
    rw [BitVec.lt_def, hshift, toNat_and_lomask, hcross, hlow, hlo, Nat.pow_add, Nat.mod_mul_right_div_self]
  have hsplit := @high_digits (2 ^ h) (a.toNat / 2 ^ h) _ (b.toNat / 2 ^ h) _ hn (hmod a.toNat) (hmod b.toNat)
  rw [Nat.div_add_mod', Nat.div_add_mod', ← Nat.pow_add] at hsplit
  rw [hhi, hsplit]
  have hbound : a.toNat * b.toNat / 2 ^ (h + h) < 2 ^ (h + h) := by
    rw [← hhi]
    exact (mulhilo a b).1.isLt
  rw [hsplit] at hbound
  rw [mulhiloC99]
  dsimp only
  rw [BitVec.toNat_add, BitVec.toNat_add, BitVec.toNat_add, BitVec.toNat_add, hshift, hshift, hshift, hhigh, hahbl, halbh, hcross]
  have hcarry : ∀ (p q : Prop) [Decidable p] [Decidable q], (p ↔ q) →
      (if p then (1 : BitVec (h + h)) else 0).toNat = (if q then 1 else 0) % 2 ^ (h + h) := by
    intro p q _ _ hpq
    by_cases hq : q
    · rw [if_pos (hpq.mpr hq), if_pos hq]
      rfl
    · rw [if_neg (fun hp => hq (hpq.mp hp)), if_neg hq]
      rfl
  rw [hcarry _ _ hlt, Nat.add_mod_mod]
  exact words_sum hbound

/-! ## Rounds -/

/-- A counter or a result of two words, the lower one first. -/
abbrev Pair (W : ℕ) := BitVec W × BitVec W

section
variable {W : ℕ}

/-- `_philox2xWround_tpl`. -/
def round (multiplier : BitVec W) (ctr : Pair W) (key : BitVec W) : Pair W :=
  let product := mulhilo multiplier ctr.1
  (product.1 ^^^ key ^^^ ctr.2, product.2)

/-- `_philox2xWbumpkey_tpl`. -/
def bumpkey (weyl key : BitVec W) : BitVec W := key + weyl

/-- `_philoxNxW_tpl`: a round, and for each further one a new key. -/
def philox2xW (multiplier weyl : BitVec W) : ℕ → Pair W → BitVec W → Pair W
  | 0, ctr, _ => ctr
  | R + 1, ctr, key =>
    ((List.range R).foldl (fun (s : Pair W × BitVec W) _ =>
      (round multiplier s.1 (bumpkey weyl s.2), bumpkey weyl s.2)) (round multiplier ctr key, key)).1

/-- An odd multiplier loses nothing. -/
theorem round_injective {multiplier : BitVec W} (hodd : multiplier.toNat % 2 = 1) (key : BitVec W) :
    Function.Injective fun ctr => round multiplier ctr key := by
  intro c c' h
  obtain ⟨hhi, hlo⟩ := Prod.mk.inj h
  have hfirst : c.1 = c'.1 := by
    apply BitVec.eq_of_toNat_eq
    have hmod : multiplier.toNat * c.1.toNat ≡ multiplier.toNat * c'.1.toNat [MOD 2 ^ W] := by
      have hnat := congrArg BitVec.toNat hlo
      rwa [(toNat_mulhilo _ _).2, (toNat_mulhilo _ _).2] at hnat
    have hcoprime : Nat.gcd (2 ^ W) multiplier.toNat = 1 :=
      Nat.Coprime.pow_left W ((Nat.coprime_two_left).mpr (Nat.odd_iff.mpr hodd))
    have hcancel := Nat.ModEq.cancel_left_of_coprime hcoprime hmod
    rwa [Nat.ModEq, Nat.mod_eq_of_lt c.1.isLt, Nat.mod_eq_of_lt c'.1.isLt] at hcancel
  refine Prod.ext hfirst ?_
  rw [hfirst] at hhi
  exact (BitVec.xor_right_inj _).mp hhi

theorem philox2xW_injective {multiplier : BitVec W} (hodd : multiplier.toNat % 2 = 1) (weyl : BitVec W) (R : ℕ) (key : BitVec W) :
    Function.Injective fun ctr => philox2xW multiplier weyl R ctr key := by
  cases R with
  | zero => exact fun _ _ h => h
  | succ R =>
    have hfold : ∀ (l : List ℕ) (s s' : Pair W × BitVec W), s.2 = s'.2 →
        (l.foldl (fun (s : Pair W × BitVec W) _ => (round multiplier s.1 (bumpkey weyl s.2), bumpkey weyl s.2)) s).1 =
          (l.foldl (fun (s : Pair W × BitVec W) _ => (round multiplier s.1 (bumpkey weyl s.2), bumpkey weyl s.2)) s').1 → s.1 = s'.1 := by
      intro l
      induction l with
      | nil => exact fun s s' _ h => h
      | cons i l ih =>
        intro s s' hkey h
        have hround := ih _ _ (congrArg (bumpkey weyl) hkey) h
        dsimp only at hround
        rw [hkey] at hround
        exact round_injective hodd _ hround
    intro c c' h
    exact round_injective hodd key (hfold (List.range R) (round multiplier c key, key) (round multiplier c' key, key) rfl h)

/-- Under every key, with any number of rounds, the generator permutes the counters. -/
theorem philox2xW_bijective (multiplier weyl : BitVec W) (hodd : multiplier.toNat % 2 = 1) (R : ℕ) (key : BitVec W) :
    Function.Bijective fun ctr => philox2xW multiplier weyl R ctr key :=
  have : Finite (BitVec W) := Finite.of_injective BitVec.toFin fun _ _ => BitVec.eq_of_toFin_eq
  Finite.injective_iff_bijective.mp (philox2xW_injective hodd weyl R key)

end

/-! ## 32 bits -/

def PHILOX_M2x32_0 : BitVec 32 := 0xd256d193

def PHILOX_W32_0 : BitVec 32 := 0x9E3779B9

def PHILOX2x32_DEFAULT_ROUNDS : ℕ := 10

theorem philox2xW_bijective_ten :
    Function.Bijective fun ctr => philox2xW PHILOX_M2x32_0 PHILOX_W32_0 PHILOX2x32_DEFAULT_ROUNDS ctr 0 :=
  philox2xW_bijective PHILOX_M2x32_0 PHILOX_W32_0 rfl PHILOX2x32_DEFAULT_ROUNDS 0

/-- `philox2x32` between the unions with `uint64_t` and `uint32_t`. -/
def philox2x32 (ctr : UInt64) (key : UInt32) : UInt64 :=
  let out := philox2xW PHILOX_M2x32_0 PHILOX_W32_0 PHILOX2x32_DEFAULT_ROUNDS
    (ctr.toBitVec.extractLsb' 0 32, ctr.toBitVec.extractLsb' 32 32) key.toBitVec
  UInt64.ofBitVec (out.2 ++ out.1)

theorem halves_injective : Function.Injective fun x : BitVec 64 => (x.extractLsb' 0 32, x.extractLsb' 32 32) := by
  intro x y h
  obtain ⟨hlow, hhigh⟩ := Prod.mk.inj h
  have hlow := congrArg BitVec.toNat hlow
  have hhigh := congrArg BitVec.toNat hhigh
  rw [BitVec.extractLsb'_toNat, BitVec.extractLsb'_toNat, Nat.shiftRight_zero, Nat.shiftRight_zero] at hlow
  rw [BitVec.extractLsb'_toNat, BitVec.extractLsb'_toNat, Nat.shiftRight_eq_div_pow, Nat.shiftRight_eq_div_pow] at hhigh
  have hx := x.isLt
  have hy := y.isLt
  apply BitVec.eq_of_toNat_eq
  omega

theorem append_injective : Function.Injective fun p : Pair 32 => p.2 ++ p.1 := by
  intro p q h
  have hnat := congrArg BitVec.toNat h
  rw [BitVec.toNat_append, BitVec.toNat_append, ← Nat.shiftLeft_add_eq_or_of_lt p.1.isLt, ← Nat.shiftLeft_add_eq_or_of_lt q.1.isLt,
    Nat.shiftLeft_eq, Nat.shiftLeft_eq] at hnat
  have hp := p.1.isLt
  have hq := q.1.isLt
  exact Prod.ext (BitVec.eq_of_toNat_eq (by omega)) (BitVec.eq_of_toNat_eq (by omega))

theorem philox2x32_injective (key : UInt32) : Function.Injective fun ctr => philox2x32 ctr key := by
  intro c c' h
  have hout := append_injective (UInt64.ofBitVec.inj h)
  have hinj := @philox2xW_injective 32 PHILOX_M2x32_0 rfl PHILOX_W32_0 PHILOX2x32_DEFAULT_ROUNDS key.toBitVec
  have hctr := hinj hout
  exact UInt64.toBitVec_inj.mp (halves_injective hctr)

/-! ## Draws -/

/-- Whatever is drawn from a state, in whatever calls, no number comes twice before all of them have come. -/
theorem numbers_nodup {F : Type} (T : Random.Target F) (hT : T.philox2x32 = philox2x32) (cs : List (Random.Size × Bool))
    (s : Random.State F) (hcount : (Random.numbers T cs s).length ≤ 2 ^ 64) : (Random.numbers T cs s).Nodup := by
  rw [Random.numbers_eq, Random.stream, hT]
  refine List.Nodup.map_on (fun i hi j hj h => ?_) List.nodup_range
  have hi := List.mem_range.mp hi
  have hj := List.mem_range.mp hj
  have hctr := philox2x32_injective s.key h
  have hnat : UInt64.ofNat i = UInt64.ofNat j :=
    (UInt64.add_right_inj s.index).mp hctr
  have htoNat := congrArg UInt64.toNat hnat
  rw [UInt64.toNat_ofNat', UInt64.toNat_ofNat', Nat.mod_eq_of_lt (by omega), Nat.mod_eq_of_lt (by omega)] at htoNat
  exact htoNat

/-- The bridge on the real generator, the floats words. -/
def philoxTarget : Random.Target UInt64 where
  philox2x32 := philox2x32
  philox_injective := philox2x32_injective
  random123 size start key := (List.range size).map fun i => philox2x32 (start + UInt64.ofNat i) key
  random123_eq _ _ _ := rfl
  uint32 n := UInt32.ofNat n.toNat
  round _ x := x
  unit _ w := w
  add _ x y := x + y
  sub _ x y := x - y
  mul _ x y := x * y
  positive x := decide (0 < x)
  polar x y := some (x, y)
  polarArray _ x y := (x, y)
  negLog _ x := x
  cast _ n := n

theorem numbers_nodup_three : (Random.numbers philoxTarget [(none, true), (some [2], true)] ⟨7, 0, false, 0⟩).Nodup :=
  numbers_nodup philoxTarget rfl [(none, true), (some [2], true)] ⟨7, 0, false, 0⟩ (by decide)

end Bohrium.Npbackend.Philox
