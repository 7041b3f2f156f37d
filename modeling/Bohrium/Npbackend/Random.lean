import Bohrium.Library.Unseen
import Mathlib.Data.List.Basic
import Mathlib.Data.Int.Notation
import Mathlib.Algebra.BigOperators.Group.List.Basic
import Mathlib.Algebra.Order.Group.Nat
import Mathlib.Algebra.GroupWithZero.Nat

/-! # The random numbers of the Python bridge

`RandomState` of `npbackend/random123.pyx`. The counter-based generator, `BH_RANDOM` and the arithmetic of
floats are parameters. Whatever draws them, the numbers are those of one stream; what `set_state` does not
restore is the second number of a pair of normals that was not handed out yet. -/
namespace Bohrium.Npbackend.Random
open Unseen
set_option autoImplicit false

inductive Dtype
  | float64 | float32
  | other (id : ℕ)
  deriving DecidableEq, Repr

def Dtype.supported : Dtype → Bool
  | .float64 | .float32 => true
  | .other _ => false

/-- What the class uses: the generator, the back end, and the operations on floats. -/
structure Target (F : Type) where
  philox2x32 : UInt64 → UInt32 → UInt64
  /-- Under one key the generator is a permutation. -/
  philox_injective : ∀ key, Function.Injective fun counter => philox2x32 counter key
  random123 : ℕ → UInt64 → UInt32 → List UInt64
  /-- `BH_RANDOM` fills element `i` with the number at `start + i`. -/
  random123_eq : ∀ size start key, random123 size start key =
    (List.range size).map fun i => philox2x32 (start + UInt64.ofNat i) key
  /-- `numpy.uint32`. -/
  uint32 : ℤ → UInt32
  /-- `dtype(x)`. -/
  round : Dtype → F → F
  /-- `dtype(x) / max_value`. -/
  unit : Dtype → UInt64 → F
  add : Dtype → F → F → F
  sub : Dtype → F → F → F
  mul : Dtype → F → F → F
  positive : F → Bool
  /-- Box-Muller by `math`, which raises an error where the logarithm is not defined. -/
  polar : F → F → Option (F × F)
  /-- Box-Muller by array operations. -/
  polarArray : Dtype → F → F → F × F
  /-- `dtype(-1) * np.log(dtype(1) - x)`. -/
  negLog : Dtype → F → F
  /-- Conversion to an integer type. -/
  cast : Dtype → ℤ → ℤ

structure State (F : Type) where
  key : UInt32
  index : UInt64
  hasGauss : Bool
  gauss : F

inductive Error
  | attributeError
  | typeError
  | overflowError
  | valueError (msg : String)
  deriving DecidableEq, Repr

/-- `None`, or the lengths of an array. -/
abbrev Size := Option (List ℕ)

abbrev SavedState := String × UInt64 × UInt32

/-- What a method returns; arrays with their shape. -/
inductive Value (F : Type)
  | none
  | state (state : SavedState)
  | words (size : Size) (xs : List UInt64)
  | ints (size : Size) (xs : List ℤ)
  | reals (size : Size) (xs : List F)
  deriving DecidableEq

section
variable {F : Type} (T : Target F)

abbrev Method (F α : Type) := Comp (State F) Error α

def modify (f : State F → State F) : Method F Unit := fun s => (.ok (), f s)

/-! ## Seeds and states -/

/-- `seed`, with the number that `os.urandom` or the clock gives for `None`. -/
def seed (entropy : ℤ) (seed : Option ℤ) : Method F Unit :=
  modify fun s => { s with key := T.uint32 (seed.getD entropy), index := 0, hasGauss := false }

def getState : Method F SavedState := fun s => (.ok ("Random123", s.index, s.key), s)

def setState (state : SavedState) : Method F Unit :=
  if state.1 ≠ "Random123" then Comp.throw (.valueError "algorithm must be 'Random123'")
  else modify fun s => { s with index := state.2.1, key := state.2.2 }

/-! ## Numbers -/

/-- The loop over an array of NumPy. -/
def fill (key : UInt32) : ℕ → UInt64 → List UInt64
  | 0, _ => []
  | length + 1, ctr => T.philox2x32 ctr key :: fill key length (ctr + 1)

/-- `cdef long length`. -/
def toLong (length : ℕ) : Except Error ℕ := if length < 2 ^ 63 then .ok length else .error .overflowError

/-- `reduce(operator.mul, size)`. -/
def reduceMul (dims : List ℕ) : Except Error ℕ := if dims = [] then .error .typeError else .ok dims.prod

/-- The variable `length` of `random123`. -/
def length (size : Size) (bohrium : Bool) : Except Error ℕ :=
  match size with
  | none => .ok 1
  | some dims => if bohrium then reduceMul dims >>= toLong else toLong dims.prod

def random123 (size : Size) (bohrium : Bool) : Method F (List UInt64) := fun s =>
  match length size bohrium with
  | .error e => (.error e, s)
  | .ok length =>
    let ret := match size with
      | none => [T.philox2x32 s.index s.key]
      | some _ => if bohrium then T.random123 length s.index s.key else fill T s.key length s.index
    (.ok ret, { s with index := s.index + UInt64.ofNat length })

def checkDtype (dtype : Dtype) (msg : String) : Method F Unit :=
  if dtype.supported then pure () else Comp.throw (.valueError msg)

def randomSample (size : Size) (dtype : Dtype) (bohrium : Bool) : Method F (List F) := do
  checkDtype dtype "dtype not supported for random_sample"
  let rUint ← random123 T size bohrium
  pure (rUint.map (T.unit dtype))

def tomaxint (size : Size) (bohrium : Bool) : Method F (List ℤ) := do
  let rUint ← random123 T size bohrium
  -- `empty_like` of a number has no shape to take
  if size = none then Comp.throw .attributeError else pure (rUint.map fun r => (r.toNat / 2 : ℤ))

def randint (low : ℤ) (high : Option ℤ) (size : Size) (dtype : Dtype) (bohrium : Bool) : Method F (List ℤ) := do
  let (low, high) := match high with
    | none => (0, low)
    | some high => (low, high)
  if low ≥ high then Comp.throw (.valueError "low >= high")
  else
    let rUint ← random123 T size bohrium
    pure (rUint.map fun r => T.cast dtype (r.toNat % (high - low)) + low)

def uniform (low high : F) (size : Size) (dtype : Dtype) (bohrium : Bool) : Method F (List F) := do
  let r ← randomSample T size dtype bohrium
  pure (r.map fun x => T.add dtype (T.mul dtype x (T.round dtype (T.sub dtype high low))) (T.round dtype low))

/-- The arguments of `rand` and `randn`. -/
def argsSize (args : List ℕ) : Size := if args = [] then none else some args

def rand (args : List ℕ) (dtype : Dtype) (bohrium : Bool) : Method F (List F) :=
  randomSample T (argsSize args) dtype bohrium

def randomIntegers (low : ℤ) (high : Option ℤ) (size : Size) : Method F (List ℤ) :=
  match high with
  | none => randint T 1 (some (low + 1)) size (.other 0) true
  | some high => randint T low (some (high + 1)) size (.other 0) true

/-! ## Normal numbers -/

/-- One number of a pair now, the other one next time. -/
def handOut (dtype : Dtype) : Option (F × F) → Method F (List F)
  | some (z0, z1) => do
    modify fun s => { s with gauss := z1, hasGauss := true }
    pure [T.round dtype z0]
  | none => Comp.throw (.valueError "math domain error")

def newGauss (dtype : Dtype) : Method F (List F) := do
  let u1 ← randomSample T none .float64 true
  let u2 ← randomSample T none .float64 true
  handOut T dtype ((u1.zip u2).head?.bind fun u => T.polar u.1 u.2)

def standardNormal (size : Size) (dtype : Dtype) (bohrium : Bool) : Method F (List F) := do
  checkDtype dtype "dtype not supported for standart_normal"
  match size with
  | none => fun s =>
    if s.hasGauss then (.ok [T.round dtype s.gauss], { s with hasGauss := false }) else newGauss T dtype s
  | some dims =>
    let length ← fun s => (reduceMul dims, s)
    let hlength := length / 2 + length % 2
    let u1 ← randomSample T (some [hlength]) dtype bohrium
    let u2 ← randomSample T (some [hlength]) dtype bohrium
    let z := (u1.zip u2).map fun p => T.polarArray dtype p.1 p.2
    pure ((z.map Prod.fst ++ z.map Prod.snd).take length)

def randn (args : List ℕ) (dtype : Dtype) (bohrium : Bool) : Method F (List F) :=
  standardNormal T (argsSize args) dtype bohrium

def checkScale (dtype : Dtype) (scale : F) : Method F Unit :=
  if T.positive (T.round dtype scale) then pure () else Comp.throw (.valueError "scale <= 0")

def normal (loc scale : F) (size : Size) (dtype : Dtype) (bohrium : Bool) : Method F (List F) := do
  checkScale T dtype scale
  let z ← standardNormal T size dtype bohrium
  pure (z.map fun x => T.add dtype (T.mul dtype x (T.round dtype scale)) (T.round dtype loc))

def standardExponential (size : Size) (dtype : Dtype) (bohrium : Bool) : Method F (List F) := do
  let r ← randomSample T size dtype bohrium
  pure (r.map (T.negLog dtype))

def exponential (scale : F) (size : Size) (dtype : Dtype) (bohrium : Bool) : Method F (List F) := do
  checkScale T dtype scale
  let r ← standardExponential T size dtype bohrium
  pure (r.map fun x => T.mul dtype x (T.round dtype scale))

/-! ## Calls -/

inductive Call (F : Type)
  | seed (entropy : ℤ) (seed : Option ℤ)
  | getState
  | setState (state : SavedState)
  | random123 (size : Size) (bohrium : Bool)
  | randomSample (size : Size) (dtype : Dtype) (bohrium : Bool)
  | tomaxint (size : Size) (bohrium : Bool)
  | randint (low : ℤ) (high : Option ℤ) (size : Size) (dtype : Dtype) (bohrium : Bool)
  | uniform (low high : F) (size : Size) (dtype : Dtype) (bohrium : Bool)
  | rand (args : List ℕ) (dtype : Dtype) (bohrium : Bool)
  | randn (args : List ℕ) (dtype : Dtype) (bohrium : Bool)
  | randomIntegers (low : ℤ) (high : Option ℤ) (size : Size)
  | standardNormal (size : Size) (dtype : Dtype) (bohrium : Bool)
  | normal (loc scale : F) (size : Size) (dtype : Dtype) (bohrium : Bool)
  | standardExponential (size : Size) (dtype : Dtype) (bohrium : Bool)
  | exponential (scale : F) (size : Size) (dtype : Dtype) (bohrium : Bool)

def call : Call F → Method F (Value F)
  | .seed entropy s => do seed T entropy s; pure .none
  | .getState => do pure (.state (← getState))
  | .setState state => do setState state; pure .none
  | .random123 size bohrium => do pure (.words size (← random123 T size bohrium))
  | .randomSample size dtype bohrium => do pure (.reals size (← randomSample T size dtype bohrium))
  | .tomaxint size bohrium => do pure (.ints size (← tomaxint T size bohrium))
  | .randint low high size dtype bohrium => do pure (.ints size (← randint T low high size dtype bohrium))
  | .uniform low high size dtype bohrium => do pure (.reals size (← uniform T low high size dtype bohrium))
  | .rand args dtype bohrium => do pure (.reals (argsSize args) (← rand T args dtype bohrium))
  | .randn args dtype bohrium => do pure (.reals (argsSize args) (← randn T args dtype bohrium))
  | .randomIntegers low high size => do pure (.ints size (← randomIntegers T low high size))
  | .standardNormal size dtype bohrium => do pure (.reals size (← standardNormal T size dtype bohrium))
  | .normal loc scale size dtype bohrium => do pure (.reals size (← normal T loc scale size dtype bohrium))
  | .standardExponential size dtype bohrium => do pure (.reals size (← standardExponential T size dtype bohrium))
  | .exponential scale size dtype bohrium => do pure (.reals size (← exponential T scale size dtype bohrium))

/-! ## The stream -/

variable {T}

theorem fill_eq (key : UInt32) (length : ℕ) (ctr : UInt64) :
    fill T key length ctr = (List.range length).map fun i => T.philox2x32 (ctr + UInt64.ofNat i) key := by
  induction length generalizing ctr with
  | zero => rfl
  | succ length ih =>
    rw [fill, ih, List.range_succ_eq_map, List.map_cons, List.map_map]
    refine congrArg₂ List.cons (by simp) (List.map_congr_left fun i _ => ?_)
    rw [Function.comp_apply, Nat.succ_eq_add_one, UInt64.ofNat_add, UInt64.add_assoc, UInt64.add_comm (UInt64.ofNat i)]
    rfl

/-- The numbers of a stream from a position on. -/
def stream (T : Target F) (key : UInt32) (start : UInt64) (n : ℕ) : List UInt64 :=
  (List.range n).map fun i => T.philox2x32 (start + UInt64.ofNat i) key

theorem stream_append (key : UInt32) (start : UInt64) (n m : ℕ) :
    stream T key start (n + m) = stream T key start n ++ stream T key (start + UInt64.ofNat n) m := by
  rw [stream, List.range_add, List.map_append, List.map_map, stream, stream]
  refine congrArg _ (List.map_congr_left fun i _ => ?_)
  rw [Function.comp_apply, UInt64.ofNat_add, UInt64.add_assoc]

/-- A call draws the next numbers of the stream, or raises an error and draws nothing. -/
theorem random123_eq (size : Size) (bohrium : Bool) (s : State F) : random123 T size bohrium s =
    match length size bohrium with
    | .ok n => (.ok (stream T s.key s.index n), { s with index := s.index + UInt64.ofNat n })
    | .error e => (.error e, s) := by
  unfold random123
  cases size with
  | none => simp [length, stream]
  | some dims =>
    cases length (some dims) bohrium with
    | error e => rfl
    | ok n =>
      cases bohrium with
      | true =>
        dsimp only
        rw [if_pos rfl, T.random123_eq]
        rfl
      | false =>
        dsimp only
        rw [if_neg Bool.false_ne_true, fill_eq]
        rfl

/-- The numbers of a sequence of draws. -/
def numbers (T : Target F) (cs : List (Size × Bool)) (s : State F) : List UInt64 :=
  (results (fun c => random123 T c.1 c.2) cs s).flatMap fun r => r.toOption.getD []

theorem numbers_eq (cs : List (Size × Bool)) (s : State F) :
    numbers T cs s = stream T s.key s.index (numbers T cs s).length := by
  induction cs generalizing s with
  | nil => rfl
  | cons c cs ih =>
    rw [numbers, results, List.flatMap_cons, random123_eq]
    cases length c.1 c.2 with
    | error e => exact ih s
    | ok n =>
      have hrest := ih { s with index := s.index + UInt64.ofNat n }
      show stream T s.key s.index n ++ numbers T cs _ = stream T s.key s.index (List.length (stream T s.key s.index n ++ numbers T cs _))
      rw [List.length_append, show (stream T s.key s.index n).length = n by simp [stream], stream_append, ← hrest]

/-! ## What a method sees of the state -/

/-- The second number of a pair is pending in both states or in none, and it is the same one. -/
def Agree (T : Target F) (s t : State F) : Prop :=
  s.hasGauss = t.hasGauss ∧
    (s.hasGauss = true → ∀ dtype : Dtype, dtype.supported = true → T.round dtype s.gauss = T.round dtype t.gauss)

def Same (T : Target F) (s t : State F) : Prop := s.key = t.key ∧ s.index = t.index ∧ Agree T s t

theorem respects_random123 (size : Size) (bohrium : Bool) : Respects (Same T) (random123 T size bohrium) := by
  intro s t h
  rw [random123_eq, random123_eq, h.1, h.2.1]
  cases length size bohrium with
  | error e => exact ⟨rfl, h⟩
  | ok n => exact ⟨rfl, rfl, rfl, h.2.2⟩

theorem respects_checkDtype (dtype : Dtype) (msg : String) : Respects (Same T) (checkDtype dtype msg) :=
  (respects_pure ()).ite (respects_throw _)

theorem respects_checkScale (dtype : Dtype) (scale : F) : Respects (Same T) (checkScale T dtype scale) :=
  (respects_pure ()).ite (respects_throw _)

theorem respects_randomSample (size : Size) (dtype : Dtype) (bohrium : Bool) :
    Respects (Same T) (randomSample T size dtype bohrium) :=
  (respects_checkDtype dtype _).bind fun _ => (respects_random123 size bohrium).bind fun _ => respects_pure _

theorem respects_randint (low : ℤ) (high : Option ℤ) (size : Size) (dtype : Dtype) (bohrium : Bool) :
    Respects (Same T) (randint T low high size dtype bohrium) :=
  (respects_throw _).ite ((respects_random123 size bohrium).bind fun _ => respects_pure _)

theorem respects_handOut (dtype : Dtype) (z : Option (F × F)) : Respects (Same T) (handOut T dtype z) := by
  cases z with
  | none => exact respects_throw _
  | some z =>
    refine Respects.bind (fun s t h => ?_) fun _ => respects_pure _
    exact ⟨rfl, h.1, h.2.1, rfl, fun _ _ _ => rfl⟩

theorem respects_newGauss (dtype : Dtype) : Respects (Same T) (newGauss T dtype) :=
  (respects_randomSample none .float64 true).bind fun _ => (respects_randomSample none .float64 true).bind fun _ =>
    respects_handOut dtype _

theorem respects_standardNormal (size : Size) (dtype : Dtype) (bohrium : Bool) :
    Respects (Same T) (standardNormal T size dtype bohrium) := by
  by_cases hdtype : dtype.supported = true
  · refine (respects_checkDtype dtype _).bind fun _ => ?_
    cases size with
    | none =>
      intro s t h
      dsimp only
      rw [← h.2.2.1]
      cases hs : s.hasGauss with
      | true =>
        rw [if_pos rfl, if_pos rfl, h.2.2.2 hs dtype hdtype]
        exact ⟨rfl, h.1, h.2.1, rfl, fun hfalse => by cases hfalse⟩
      | false =>
        rw [if_neg Bool.false_ne_true, if_neg Bool.false_ne_true]
        exact respects_newGauss dtype s t h
    | some dims =>
      refine Respects.bind (fun _ _ h => ⟨rfl, h⟩) fun length => ?_
      exact (respects_randomSample _ dtype bohrium).bind fun _ => (respects_randomSample _ dtype bohrium).bind fun _ =>
        respects_pure _
  · intro s t h
    have herror : ∀ s, standardNormal T size dtype bohrium s =
        (.error (.valueError "dtype not supported for standart_normal"), s) := by
      intro s
      show Comp.bind _ _ s = _
      unfold Comp.bind
      rw [checkDtype, if_neg hdtype]
      rfl
    rw [herror, herror]
    exact ⟨rfl, h⟩

theorem respects_seed (entropy : ℤ) (sd : Option ℤ) : Respects (Same T) (seed T entropy sd) :=
  fun _ _ _ => ⟨rfl, rfl, rfl, rfl, fun h => by cases h⟩

theorem respects_getState : Respects (Same T) (getState (F := F)) := by
  intro s t h
  refine ⟨?_, h⟩
  rw [getState, getState, h.1, h.2.1]

theorem respects_setState (state : SavedState) : Respects (Same T) (setState (F := F) state) :=
  (respects_throw _).ite fun _ _ h => ⟨rfl, rfl, rfl, h.2.2⟩

theorem respects_call (c : Call F) : Respects (Same T) (call T c) := by
  cases c with
  | seed entropy sd => exact (respects_seed entropy sd).bind fun _ => respects_pure _
  | getState => exact respects_getState.bind fun _ => respects_pure _
  | setState state => exact (respects_setState state).bind fun _ => respects_pure _
  | random123 size bohrium => exact (respects_random123 size bohrium).bind fun _ => respects_pure _
  | randomSample size dtype bohrium => exact (respects_randomSample size dtype bohrium).bind fun _ => respects_pure _
  | tomaxint size bohrium =>
    exact ((respects_random123 size bohrium).bind fun _ => (respects_throw _).ite (respects_pure _)).bind fun _ => respects_pure _
  | randint low high size dtype bohrium =>
    exact (respects_randint low high size dtype bohrium).bind fun _ => respects_pure _
  | uniform low high size dtype bohrium =>
    exact ((respects_randomSample size dtype bohrium).bind fun _ => respects_pure _).bind fun _ => respects_pure _
  | rand args dtype bohrium => exact (respects_randomSample (argsSize args) dtype bohrium).bind fun _ => respects_pure _
  | randn args dtype bohrium => exact (respects_standardNormal (argsSize args) dtype bohrium).bind fun _ => respects_pure _
  | randomIntegers low high size =>
    refine Respects.bind ?_ fun _ => respects_pure _
    cases high with
    | none => exact respects_randint _ _ size _ _
    | some high => exact respects_randint _ _ size _ _
  | standardNormal size dtype bohrium => exact (respects_standardNormal size dtype bohrium).bind fun _ => respects_pure _
  | normal loc scale size dtype bohrium =>
    exact ((respects_checkScale dtype scale).bind fun _ => (respects_standardNormal size dtype bohrium).bind fun _ =>
      respects_pure _).bind fun _ => respects_pure _
  | standardExponential size dtype bohrium =>
    exact ((respects_randomSample size dtype bohrium).bind fun _ => respects_pure _).bind fun _ => respects_pure _
  | exponential scale size dtype bohrium =>
    exact ((respects_checkScale dtype scale).bind fun _ => ((respects_randomSample size dtype bohrium).bind fun _ =>
      respects_pure _).bind fun _ => respects_pure _).bind fun _ => respects_pure _

/-! ## Saving and restoring -/

/-- From `t`, the state of `s` restored, every later sequence of calls gives what it gives from `s`. -/
def Restores (T : Target F) (s t : State F) : Prop :=
  ∀ state, (getState s).1 = .ok state → ∀ cs : List (Call F),
    results (call T) cs (setState state t).2 = results (call T) cs s

theorem setState_getState (s t : State F) :
    (setState ("Random123", s.index, s.key) t).2 = { t with index := s.index, key := s.key } := rfl

theorem restores_of_agree {s t : State F} (h : Agree T s t) : Restores T s t := by
  intro state hstate cs
  obtain rfl := Except.ok.inj hstate
  refine (results_eq respects_call cs (s := s) ?_).symm
  exact ⟨rfl, rfl, h⟩

/-- A new pair takes two numbers of the stream, also when it raises an error. -/
theorem newGauss_state (dtype : Dtype) (s : State F) :
    (newGauss T dtype s).2.index = s.index + UInt64.ofNat 1 + UInt64.ofNat 1 ∧ (newGauss T dtype s).2.key = s.key := by
  have hpair : newGauss T dtype s = handOut T dtype
      (T.polar (T.unit .float64 (T.philox2x32 s.index s.key))
        (T.unit .float64 (T.philox2x32 (s.index + UInt64.ofNat 1) s.key)))
      { s with index := s.index + UInt64.ofNat 1 + UInt64.ofNat 1 } := rfl
  rw [hpair]
  cases T.polar _ _ with
  | none => exact ⟨rfl, rfl⟩
  | some z => exact ⟨rfl, rfl⟩

theorem add_two_ne (x : UInt64) : x + UInt64.ofNat 1 + UInt64.ofNat 1 ≠ x := by
  intro h
  have htwo : x + (UInt64.ofNat 1 + UInt64.ofNat 1) = x + 0 := by
    rw [← UInt64.add_assoc, h, UInt64.add_zero]
  exact absurd ((UInt64.add_right_inj x).mp htwo) (by decide)

/-- What the draw after a normal shows. -/
theorem pending_of_results {s t : State F} (hkey : s.key = t.key) (hindex : s.index = t.index)
    (h : ∀ cs : List (Call F), results (call T) cs t = results (call T) cs s) (hs : s.hasGauss = true) : t.hasGauss = true := by
  by_contra ht
  have ht : t.hasGauss = false := by simpa using ht
  have hsnormal : standardNormal T none .float64 true s = (.ok [T.round .float64 s.gauss], { s with hasGauss := false }) := by
    show (if s.hasGauss then _ else newGauss T .float64 s) = _
    rw [if_pos hs]
  have htnormal : standardNormal T none .float64 true t = newGauss T .float64 t := by
    show (if t.hasGauss then _ else newGauss T .float64 t) = _
    rw [if_neg (by rw [ht]; exact Bool.false_ne_true)]
  have hafter : ∀ u : State F, (call T (.standardNormal none .float64 true) u).2 = (standardNormal T none .float64 true u).2 :=
    fun u => Comp.bind_pure_state _ _ u
  have hdraw : ∀ u : State F, (call T (.random123 none true) u).1 = .ok (.words none [T.philox2x32 u.index u.key]) :=
    fun _ => rfl
  have hrun := h [.standardNormal none .float64 true, .random123 none true]
  obtain ⟨-, hsecond⟩ := List.cons.inj hrun
  obtain ⟨hword, -⟩ := List.cons.inj hsecond
  rw [hafter, hafter, hsnormal, htnormal] at hword
  obtain ⟨hi, hk⟩ := newGauss_state (T := T) .float64 t
  have hnumber : T.philox2x32 (newGauss T .float64 t).2.index (newGauss T .float64 t).2.key = T.philox2x32 s.index s.key := by
    rw [hdraw, hdraw] at hword
    simpa using hword
  rw [hk, hi, hkey, hindex] at hnumber
  exact add_two_ne _ (T.philox_injective t.key hnumber)

theorem agree_of_restores {s t : State F} (h : Restores T s t) : Agree T s t := by
  have hrun := h ("Random123", s.index, s.key) rfl
  rw [setState_getState] at hrun
  have hpending : s.hasGauss = t.hasGauss := by
    cases hs : s.hasGauss with
    | true => exact (@pending_of_results F T s { t with index := s.index, key := s.key } rfl rfl hrun hs).symm
    | false =>
      by_contra ht
      have ht : t.hasGauss = true := by simpa using Ne.symm ht
      have := @pending_of_results F T { t with index := s.index, key := s.key } s rfl rfl (fun cs => (hrun cs).symm) ht
      rw [hs] at this
      cases this
  refine ⟨hpending, fun hs dtype hdtype => ?_⟩
  have hnormal : ∀ u : State F, u.hasGauss = true → (call T (.standardNormal none dtype true) u).1 =
      .ok (.reals none [T.round dtype u.gauss]) := by
    intro u hu
    have hfirst : standardNormal T none dtype true u = (.ok [T.round dtype u.gauss], { u with hasGauss := false }) := by
      unfold standardNormal
      rw [checkDtype, if_pos hdtype]
      show (if u.hasGauss then _ else newGauss T dtype u) = _
      rw [if_pos hu]
    show (Comp.bind (standardNormal T none dtype true) _ u).1 = _
    unfold Comp.bind
    rw [hfirst]
    rfl
  have hfirst := (List.cons.inj (hrun [.standardNormal none dtype true])).1
  rw [hnormal s hs, hnormal _ (hpending ▸ hs)] at hfirst
  simpa using hfirst.symm

/-- Every sequence of draws gives the numbers of the stream in order, and saving and restoring a state is
right exactly if both generators have the same normal number pending, or none. -/
theorem random_iff {F : Type} (T : Target F) :
    (∀ (s : State F) (entropy : ℤ) (sd : Option ℤ) (cs : List (Size × Bool)),
      numbers T cs (seed T entropy sd s).2 = (List.range (numbers T cs (seed T entropy sd s).2).length).map fun i =>
        T.philox2x32 (UInt64.ofNat i) (T.uint32 (sd.getD entropy))) ∧
    ∀ s t : State F, Restores T s t ↔ Agree T s t := by
  refine ⟨fun s entropy sd cs => ?_, fun s t => ⟨agree_of_restores, restores_of_agree⟩⟩
  refine (numbers_eq cs _).trans (List.map_congr_left fun i _ => ?_)
  show T.philox2x32 (0 + UInt64.ofNat i) _ = _
  rw [UInt64.zero_add]
  rfl

end

/-- A generator that counts, and floats that are words. -/
def plainTarget : Target UInt64 where
  philox2x32 := fun counter _ => counter
  philox_injective := fun _ _ _ h => h
  random123 := fun size start _ => (List.range size).map fun i => start + UInt64.ofNat i
  random123_eq := fun _ _ _ => rfl
  uint32 := fun n => UInt32.ofNat n.toNat
  round := fun _ x => x
  unit := fun _ w => w
  add := fun _ x y => x + y
  sub := fun _ x y => x - y
  mul := fun _ x y => x * y
  positive := fun x => decide (0 < x)
  polar := fun x y => some (x, y)
  polarArray := fun _ x y => (x, y)
  negLog := fun _ x => x
  cast := fun _ n => n

def seeded : State UInt64 := ⟨7, 0, false, 0⟩

theorem not_restores_pending : ¬ ∀ cs cs' : List (Call UInt64),
    Restores plainTarget (after (call plainTarget) cs seeded) (after (call plainTarget) cs' seeded) := by
  intro h
  have hrun := h [.standardNormal none .float64 true] [] ("Random123", 2, 7) rfl [.standardNormal none .float64 true]
  revert hrun
  decide

end Bohrium.Npbackend.Random
