import Bohrium.Core.Opcode
import Bohrium.Library.Fold
import Mathlib.Algebra.Group.Int.Defs
import Mathlib.Algebra.Ring.Int.Defs
import Mathlib.Data.Int.Order.Basic
import Mathlib.Order.Lattice

/-! # Complete reductions of the CPU engine

The accumulators of the generated kernel (`ve/cpu/codegen/walker_oper.cpp`, `walker.cpp`,
`templates/walker.collapsed.tpl`): each worker folds its elements from the neutral element, and the
results are combined, one at a time, into an output that starts as the neutral element. Elements of
fixed width are bit vectors, and arithmetic wraps. -/
namespace Bohrium.Cpu
open Fold
set_option autoImplicit false

/-- The operators of the reductions. -/
inductive Reducer
  | add | multiply | minimum | maximum | logicalAnd | logicalOr | logicalXor | bitwiseAnd | bitwiseOr | bitwiseXor
  deriving DecidableEq, Repr

/-- The boolean and integer types of the reduction in `core/codegen/opcodes.json`. -/
def Reducer.definedFor : Reducer → BhType → Bool
  | _, .float32 | _, .float64 | _, .complex64 | _, .complex128 => false
  | .add, .bool => false
  | .logicalAnd, type | .logicalOr, type | .logicalXor, type => type = .bool
  | _, _ => true

/-- The texts of `oper_neutral_element`: literals, and macros of C with the width in their name. -/
inductive Neutral
  | literal (n : ℤ)
  | intMin (bits : ℕ)
  | intMax (bits : ℕ)
  | uintMin (bits : ℕ)
  | uintMax (bits : ℕ)
  | fltMin | fltMax | dblMin | dblMax
  | unknown
  deriving DecidableEq, Repr

/-- `oper_neutral_element`; the `switch` below the first `return` of `BITWISE_AND` is never reached. -/
def operNeutralElement : Reducer → BhType → Neutral
  | .add, _ => .literal 0
  | .multiply, _ => .literal 1
  | .maximum, type =>
    match type with
    | .bool => .literal 0
    | .int8 => .intMin 8
    | .int16 => .intMin 16
    | .int32 => .intMin 32
    | .int64 => .intMin 64
    | .uint8 => .uintMin 8
    | .uint16 => .uintMin 16
    | .uint32 => .uintMin 32
    | .uint64 => .uintMin 64
    | .float32 => .fltMin
    | .float64 => .dblMin
    | _ => .unknown
  | .minimum, type =>
    match type with
    | .bool => .literal 1
    | .int8 => .intMax 8
    | .int16 => .intMax 16
    | .int32 => .intMax 32
    | .int64 => .intMax 64
    | .uint8 => .uintMax 8
    | .uint16 => .uintMax 16
    | .uint32 => .uintMax 32
    | .uint64 => .uintMax 64
    | .float32 => .fltMax
    | .float64 => .dblMax
    | _ => .unknown
  | .logicalAnd, _ => .literal 1
  | .logicalOr, _ => .literal 0
  | .logicalXor, _ => .literal 0
  | .bitwiseAnd, _ => .literal 1
  | .bitwiseOr, _ => .literal 0
  | .bitwiseXor, _ => .literal 0

/-- The integer a text stands for. `stdint.h` has `INT8_MIN`, `INT8_MAX` and `UINT8_MAX` (and so for the
other widths), but there is no `UINT8_MIN`: a kernel with it does not compile. -/
def Neutral.value : Neutral → Option ℤ
  | .literal n => some n
  | .intMin bits => some (-2 ^ (bits - 1))
  | .intMax bits => some (2 ^ (bits - 1) - 1)
  | .uintMax bits => some (2 ^ bits - 1)
  | _ => none

/-- The width of an element in bits; a boolean is an `unsigned char`. -/
def bits (type : BhType) : ℕ := 8 * bhTypeSize type

def isSigned : BhType → Bool
  | .int8 | .int16 | .int32 | .int64 => true
  | _ => false

/-- `left < right`. -/
def less (type : BhType) (left right : BitVec (bits type)) : Bool :=
  if isSigned type then left.slt right else left.ult right

def ofBool {w : ℕ} (b : Bool) : BitVec w := if b then 1 else 0

/-- The expression of `oper`, assigned to an element. -/
def Reducer.oper (type : BhType) : Reducer → BitVec (bits type) → BitVec (bits type) → BitVec (bits type)
  | .add, left, right => left + right
  | .multiply, left, right => left * right
  | .maximum, left, right => if less type left right then right else left
  | .minimum, left, right => if less type left right then left else right
  | .logicalAnd, left, right => ofBool (left != 0 && right != 0)
  | .logicalOr, left, right => ofBool (left != 0 || right != 0)
  | .logicalXor, left, right => ofBool ((left == 0) != (right == 0))
  | .bitwiseAnd, left, right => left &&& right
  | .bitwiseOr, left, right => left ||| right
  | .bitwiseXor, left, right => left ^^^ right

/-- The kernel of a complete reduction: `work` holds the elements of the workers, in the order in which
they reach the synchronised combine. A worker without work does not take part. -/
def reduceKernel (r : Reducer) (type : BhType) (work : List (List (BitVec (bits type)))) :
    Option (BitVec (bits type)) :=
  (operNeutralElement r type).value.map fun e => foldGroups (r.oper type) (BitVec.ofInt (bits type) e) work

/-- A complete reduction. The layout of one element is `SCALAR`, and `tac_transform` turns its reduction into
`MAP` and `IDENTITY`, which copy it. -/
def reduceComplete (r : Reducer) (type : BhType) (work : List (List (BitVec (bits type)))) :
    Option (BitVec (bits type)) :=
  match work.flatten with
  | [x] => some x
  | _ => reduceKernel r type work

/-- An element of an array of booleans is zero or one. -/
def IsElement (type : BhType) (x : BitVec (bits type)) : Prop := type = .bool → x = 0 ∨ x = 1

/-! ## The operators -/

/-- The number an element is. -/
def number (type : BhType) (x : BitVec (bits type)) : ℤ := if isSigned type then x.toInt else x.toNat

section

variable {type : BhType} {left right : BitVec (bits type)}

theorem less_iff : less type left right = true ↔ number type left < number type right := by
  unfold less number
  split
  · exact BitVec.slt_iff_toInt_lt
  · rw [BitVec.ult_iff_toNat_lt, Int.ofNat_lt]

theorem number_inj (h : number type left = number type right) : left = right := by
  unfold number at h
  split at h
  · exact BitVec.toInt_inj.mp h
  · exact BitVec.eq_of_toNat_eq (Int.ofNat_inj.mp h)

theorem number_maximum : number type (Reducer.maximum.oper type left right) = max (number type left) (number type right) := by
  simp only [Reducer.oper]
  by_cases h : less type left right = true
  · rw [if_pos h, max_eq_right (less_iff.mp h).le]
  · rw [if_neg h, max_eq_left (not_lt.mp fun hlt => h (less_iff.mpr hlt))]

theorem number_minimum : number type (Reducer.minimum.oper type left right) = min (number type left) (number type right) := by
  simp only [Reducer.oper]
  by_cases h : less type left right = true
  · rw [if_pos h, min_eq_left (less_iff.mp h).le]
  · rw [if_neg h, min_eq_right (not_lt.mp fun hlt => h (less_iff.mpr hlt))]

theorem ofBool_bne_zero (b : Bool) : ((ofBool b : BitVec (bits type)) != 0) = b := by
  cases b <;> cases type <;> decide

theorem ofBool_beq_zero (b : Bool) : ((ofBool b : BitVec (bits type)) == 0) = !b := by
  cases b <;> cases type <;> decide

end

instance instAssociativeOper (type : BhType) (r : Reducer) : Std.Associative (r.oper type) where
  assoc a b c := by
    cases r with
    | add => exact BitVec.add_assoc a b c
    | multiply => exact BitVec.mul_assoc a b c
    | minimum => exact number_inj (by simp only [number_minimum, min_assoc])
    | maximum => exact number_inj (by simp only [number_maximum, max_assoc])
    | logicalAnd => simp only [Reducer.oper, ofBool_bne_zero, Bool.and_assoc]
    | logicalOr => simp only [Reducer.oper, ofBool_bne_zero, Bool.or_assoc]
    | logicalXor =>
      simp only [Reducer.oper, ofBool_beq_zero]
      cases a == 0 <;> cases b == 0 <;> cases c == 0 <;> rfl
    | bitwiseAnd => exact BitVec.and_assoc a b c
    | bitwiseOr => exact BitVec.or_assoc a b c
    | bitwiseXor => exact BitVec.xor_assoc a b c

instance instCommutativeOper (type : BhType) (r : Reducer) : Std.Commutative (r.oper type) where
  comm a b := by
    cases r with
    | add => exact BitVec.add_comm a b
    | multiply => exact BitVec.mul_comm a b
    | minimum => exact number_inj (by simp only [number_minimum, min_comm])
    | maximum => exact number_inj (by simp only [number_maximum, max_comm])
    | logicalAnd => simp only [Reducer.oper, Bool.and_comm]
    | logicalOr => simp only [Reducer.oper, Bool.or_comm]
    | logicalXor => simp only [Reducer.oper, bne_comm]
    | bitwiseAnd => exact BitVec.and_comm a b
    | bitwiseOr => exact BitVec.or_comm a b
    | bitwiseXor => exact BitVec.xor_comm a b

/-! ## The neutral elements -/

theorem isElement_oper {type : BhType} (r : Reducer) {a b : BitVec (bits type)} (ha : IsElement type a)
    (hb : IsElement type b) : IsElement type (r.oper type a b) ∨ r = .add := by
  by_cases hr : r = .add
  · exact Or.inr hr
  refine Or.inl fun htype => ?_
  subst htype
  obtain rfl | rfl := ha rfl <;> obtain rfl | rfl := hb rfl <;> cases r <;>
    first | contradiction | decide

theorem isElement_fold {type : BhType} {r : Reducer} (hr : r.definedFor type = true) {x : BitVec (bits type)}
    {xs : List (BitVec (bits type))} (h : ∀ y ∈ x :: xs, IsElement type y) :
    IsElement type (xs.foldl (r.oper type) x) := by
  induction xs generalizing x with
  | nil => exact h x (by simp)
  | cons y ys ih =>
    rw [List.foldl_cons]
    apply ih
    intro z hz
    rw [List.mem_cons] at hz
    obtain rfl | hz := hz
    · obtain hel | rfl := isElement_oper r (h x (by simp)) (h y (by simp))
      · exact hel
      · intro htype
        subst htype
        cases hr
    · exact h z (by simp [hz])

/-- The neutral element as an element. -/
def start (r : Reducer) (type : BhType) : Option (BitVec (bits type)) :=
  (operNeutralElement r type).value.map (BitVec.ofInt (bits type))

theorem reduceKernel_eq (r : Reducer) (type : BhType) (work : List (List (BitVec (bits type)))) :
    reduceKernel r type work = (start r type).map fun e => foldGroups (r.oper type) e work := by
  unfold reduceKernel start
  rw [Option.map_map]
  rfl

/-- The texts for which there is a macro. -/
theorem start_isSome {r : Reducer} {type : BhType} (h : r.definedFor type = true) :
    (start r type).isSome = true ↔ (r = .maximum → type = .bool ∨ isSigned type = true) := by
  revert h
  cases r <;> cases type <;> decide

/-- The numbers of a type. -/
theorem number_bounds (type : BhType) (t : BitVec (bits type)) :
    if isSigned type then -2 ^ (bits type - 1) ≤ number type t ∧ number type t ≤ 2 ^ (bits type - 1) - 1
    else 0 ≤ number type t ∧ number type t ≤ 2 ^ bits type - 1 := by
  unfold number
  split
  · exact ⟨BitVec.le_toInt t, BitVec.toInt_le⟩
  · have hlt : (t.toNat : ℤ) < (2 ^ bits type : ℕ) := Int.ofNat_lt.mpr t.isLt
    rw [Int.natCast_pow] at hlt
    change _ < (2 : ℤ) ^ _ at hlt
    omega

theorem number_start_maximum_le {type : BhType} {e : BitVec (bits type)} (he : start .maximum type = some e)
    (t : BitVec (bits type)) : number type e ≤ number type t := by
  have hbounds := number_bounds type t
  cases type with
  | bool =>
    obtain rfl : _ = e := Option.some.inj he
    exact hbounds.1
  | int8 | int16 | int32 | int64 =>
    obtain rfl : _ = e := Option.some.inj he
    refine le_trans (le_of_eq ?_) hbounds.1
    decide
  | _ => cases he

theorem number_le_start_minimum {type : BhType} {e : BitVec (bits type)} (he : start .minimum type = some e)
    {t : BitVec (bits type)} (ht : IsElement type t) : number type t ≤ number type e := by
  have hbounds := number_bounds type t
  cases type with
  | bool =>
    obtain rfl : _ = e := Option.some.inj he
    obtain rfl | rfl := ht rfl <;> decide
  | int8 | int16 | int32 | int64 | uint8 | uint16 | uint32 | uint64 =>
    obtain rfl : _ = e := Option.some.inj he
    refine le_trans hbounds.2 (le_of_eq ?_)
    decide
  | _ => cases he

/-- The neutral elements are neutral, that of the bitwise conjunction of integers apart. -/
theorem oper_start {r : Reducer} {type : BhType} {e t : BitVec (bits type)} (hr : r.definedFor type = true)
    (he : start r type = some e) (ht : IsElement type t) (hand : r = .bitwiseAnd → type = .bool) :
    r.oper type e t = t := by
  cases r with
  | add =>
    obtain rfl : _ = e := Option.some.inj he
    exact BitVec.zero_add t
  | multiply =>
    obtain rfl : _ = e := Option.some.inj he
    exact BitVec.one_mul t
  | maximum =>
    apply number_inj
    rw [number_maximum, max_eq_right (number_start_maximum_le he t)]
  | minimum =>
    apply number_inj
    rw [number_minimum, min_eq_right (number_le_start_minimum he ht)]
  | bitwiseOr =>
    obtain rfl : _ = e := Option.some.inj he
    exact BitVec.zero_or
  | bitwiseXor =>
    obtain rfl : _ = e := Option.some.inj he
    exact BitVec.zero_xor
  | bitwiseAnd =>
    obtain rfl := hand rfl
    obtain rfl : _ = e := Option.some.inj he
    obtain rfl | rfl := ht rfl <;> decide
  | logicalAnd | logicalOr | logicalXor =>
    obtain rfl : type = .bool := by cases type <;> first | rfl | cases hr
    obtain rfl : _ = e := Option.some.inj he
    obtain rfl | rfl := ht rfl <;> decide

/-! ## The bitwise conjunction -/

theorem getLsbD_fold_and {w : ℕ} (x : BitVec w) (xs : List (BitVec w)) (k : ℕ) :
    (xs.foldl (· &&& ·) x).getLsbD k = (x :: xs).all fun y => y.getLsbD k := by
  induction xs generalizing x with
  | nil => simp
  | cons y ys ih => simp [ih, Bool.and_assoc]

/-- The one bit of `1` is all that is left of a number. -/
theorem one_and_eq_iff {w : ℕ} (hw : 0 < w) (t : BitVec w) :
    1#w &&& t = t ↔ ∀ k, 1 ≤ k → k < w → t.getLsbD k = false := by
  constructor
  · intro h k h1 _
    rw [← h, BitVec.getLsbD_and, BitVec.getLsbD_one, decide_eq_false (by omega : ¬k = 0)]
    simp
  · intro h
    apply BitVec.eq_of_getLsbD_eq
    intro k hk
    rw [BitVec.getLsbD_and, BitVec.getLsbD_one]
    by_cases h0 : k = 0
    · simp [h0, hw]
    · simp [h0, h k (by omega) hk]

theorem bitwiseAnd_start_iff {type : BhType} (x : BitVec (bits type)) (xs : List (BitVec (bits type))) :
    Reducer.bitwiseAnd.oper type (BitVec.ofInt _ 1) (xs.foldl (Reducer.bitwiseAnd.oper type) x) =
        xs.foldl (Reducer.bitwiseAnd.oper type) x ↔
      ∀ k, 1 ≤ k → k < bits type → ∃ y ∈ x :: xs, y.getLsbD k = false := by
  have hone : BitVec.ofInt (bits type) 1 = 1#(bits type) := by cases type <;> rfl
  have hw : 0 < bits type := by cases type <;> decide
  have hop : Reducer.bitwiseAnd.oper type = (· &&& ·) := rfl
  rw [hone, hop, one_and_eq_iff hw]
  apply forall_congr'
  intro k
  simp only [getLsbD_fold_and, List.all_eq_false, Bool.not_eq_true]

/-! ## The whole reduction -/

theorem oper_start_self {r : Reducer} {type : BhType} {e : BitVec (bits type)} (hr : r.definedFor type = true)
    (he : start r type = some e) : r.oper type e e = e := by
  by_cases hand : r = .bitwiseAnd
  · subst hand
    exact BitVec.and_self
  · refine oper_start hr he ?_ fun h => absurd h hand
    intro htype
    subst htype
    cases r <;> first | cases hr; done | (obtain rfl : _ = e := Option.some.inj he; decide)

/-- The kernel computes the plain reduction, whatever the workers' shares and the order of their results,
exactly when its neutral element is there, and is neutral. -/
theorem reduceKernel_eq_foldl_iff {r : Reducer} {type : BhType} (hr : r.definedFor type = true)
    {x : BitVec (bits type)} {xs : List (BitVec (bits type))} (hx : ∀ y ∈ x :: xs, IsElement type y)
    {work : List (List (BitVec (bits type)))} (hwork : work.flatten.Perm (x :: xs)) :
    reduceKernel r type work = some (xs.foldl (r.oper type) x) ↔
      (r = .maximum → type = .bool ∨ isSigned type = true) ∧
        (r = .bitwiseAnd → type ≠ .bool → ∀ k, 1 ≤ k → k < bits type → ∃ y ∈ x :: xs, y.getLsbD k = false) := by
  rw [reduceKernel_eq, ← start_isSome hr]
  cases he : start r type with
  | none => simp
  | some e =>
    rw [Option.map_some, foldGroups_eq _ (oper_start_self hr he) hwork, Option.some.injEq]
    rw [Option.isSome_some, eq_self_iff_true, true_and]
    by_cases hand : r = .bitwiseAnd → type = .bool
    · simp only [oper_start hr he (isElement_fold hr hx) hand, true_iff]
      exact fun h hne => absurd (hand h) hne
    · push Not at hand
      obtain ⟨rfl, hne⟩ := hand
      obtain rfl : _ = e := Option.some.inj he
      rw [← bitwiseAnd_start_iff]
      simp [hne]

theorem reduceComplete_of_ne_nil {r : Reducer} {type : BhType} {x : BitVec (bits type)} {xs : List (BitVec (bits type))}
    {work : List (List (BitVec (bits type)))} (hwork : work.flatten.Perm (x :: xs)) (hxs : xs ≠ []) :
    reduceComplete r type work = reduceKernel r type work := by
  unfold reduceComplete
  split
  next y heq =>
    rw [heq] at hwork
    exact absurd (List.cons.inj (List.singleton_perm.mp hwork)).2.symm hxs
  next => rfl

/-- The parallel reduction is the plain one, whatever the workers' shares and the order of their results,
exactly when there is one element, or the kernel's neutral element is there, and is neutral: the maximum of
unsigned integers has none, and the conjunction of integers loses every bit but the lowest. -/
theorem reduceComplete_eq_foldl_iff {r : Reducer} {type : BhType} (hr : r.definedFor type = true)
    {x : BitVec (bits type)} {xs : List (BitVec (bits type))} (hx : ∀ y ∈ x :: xs, IsElement type y)
    {work : List (List (BitVec (bits type)))} (hwork : work.flatten.Perm (x :: xs)) :
    reduceComplete r type work = some (xs.foldl (r.oper type) x) ↔
      xs = [] ∨ (r = .maximum → type = .bool ∨ isSigned type = true) ∧
        (r = .bitwiseAnd → type ≠ .bool → ∀ k, 1 ≤ k → k < bits type → ∃ y ∈ x :: xs, y.getLsbD k = false) := by
  by_cases hxs : xs = []
  · subst hxs
    unfold reduceComplete
    rw [List.perm_singleton.mp hwork]
    simp
  · rw [reduceComplete_of_ne_nil hwork hxs, reduceKernel_eq_foldl_iff hr hx hwork]
    simp only [hxs, false_or]

theorem reduceComplete_eq_foldl_int8 :
    Reducer.add.definedFor .int8 = true ∧
      reduceComplete .add .int8 [[100#8, 3#8], [], [90#8]] = some ([100#8, 90#8].foldl (Reducer.add.oper .int8) 3#8) := by
  have hr : Reducer.add.definedFor .int8 = true := rfl
  have hx : ∀ y ∈ ([3#8, 100#8, 90#8] : List (BitVec (bits .int8))), IsElement .int8 y := fun _ _ h => nomatch h
  have hwork : ([[100#8, 3#8], [], [90#8]] : List (List (BitVec (bits .int8)))).flatten.Perm [3#8, 100#8, 90#8] := by
    decide
  refine ⟨hr, (reduceComplete_eq_foldl_iff hr hx hwork).mpr (Or.inr ⟨?_, ?_⟩)⟩
  · exact fun h => nomatch h
  · exact fun h => nomatch h

/-- The conjunction of the numbers `6` and `7` is not `6`. -/
theorem reduceComplete_bitwiseAnd_ne :
    ¬∀ (r : Reducer) (type : BhType) (x : BitVec (bits type)) (xs : List (BitVec (bits type)))
        (work : List (List (BitVec (bits type)))), r.definedFor type = true → (∀ y ∈ x :: xs, IsElement type y) →
      work.flatten.Perm (x :: xs) → reduceComplete r type work = some (xs.foldl (r.oper type) x) := by
  intro h
  have h6 := h .bitwiseAnd .int64 6#64 [7#64] [[6#64, 7#64]] rfl (fun _ _ h => nomatch h) (by decide)
  revert h6
  decide

end Bohrium.Cpu
