import Bohrium.NumCil.Kernels
import Mathlib.Data.List.TakeWhile

/-! # Lazy evaluation in NumCIL

`LazyAccessorCollector`, `LazyAccessor` and `ValueAccessor` (`DataAccessor.cs`, `NdArray.cs`), with the
entry points of `UFunc`, in one thread. An operation on arrays with `LazyAccessor`s is put on one list
of pending operations; an access to an array executes those up to the clock of the array, and the
execution of an operation accesses its operands in turn. An elementwise operation runs through a method
that is made for its types and kept under its operator. The reference executes every operation when it is
called, as on `DefaultAccessor`s. -/
namespace Bohrium.NumCil
open Reorder
set_option autoImplicit false

variable {V : Type}

/-! ## The collector -/

/-- The types of a call: the operator, which is its type and the values of its fields, and the element types of
the target and of the inputs. -/
structure Call where
  operator : ℕ
  target : ℕ
  inputs : List ℕ

structure PendingOperation (V : Type) where
  clock : ℕ
  operation : Operation V
  call : Call

/-- `mclock` is the field `m_clock` of each accessor and `result` the element of the accessor that the
aggregation of a clock makes for itself; `executed` logs the clocks of the executed operations.
`specialized` is the dictionary `specializedMethods` of each target type: the inputs that the method of an
operator is made for. Nothing more happens once a call has `thrown`. -/
structure LazyState (V : Type) where
  data : Data V
  result : ℕ → Option V := fun _ => none
  mclock : Accessor → ℕ := fun _ => 0
  globalClock : ℕ := 0
  pending : List (PendingOperation V) := []
  executed : List ℕ := []
  specialized : ℕ → ℕ → Option (List ℕ) := fun _ _ => none
  thrown : Bool := false

/-- The operations that `DoExecute` runs through `specializedMethods`; the other dictionaries have one method
for each operator. -/
def Operation.elementwise : Operation V → Bool
  | nullary _ _ | unary _ _ _ | binary _ _ _ _ => true
  | reduce _ _ _ _ | matmul _ _ _ _ _ | aggregate _ _ => false

namespace PendingOperation

/-- The look-up in `specializedMethods`: the operator alone is the key. `Invoke` throws where the method that is
found is made for other inputs. -/
def specialize (p : PendingOperation V) (s : LazyState V) : LazyState V :=
  if s.thrown ∨ p.operation.elementwise = false then s
  else match s.specialized p.call.target p.call.operator with
    | some inputs => if inputs = p.call.inputs then s else { s with thrown := true }
    | none =>
      let methods := Function.update (s.specialized p.call.target) p.call.operator (some p.call.inputs)
      { s with specialized := Function.update s.specialized p.call.target methods }

/-- The end of `DoExecute` for an operation that has its operands. -/
def apply (p : PendingOperation V) (s : LazyState V) : LazyState V :=
  if s.thrown then s
  else { s with
    data := p.operation.flush false s.data
    result := match p.operation.value? false s.data with
      | some v => Function.update s.result p.clock (some v)
      | none => s.result
    executed := s.executed ++ [p.clock] }

/-- `DoExecute` of one operation, where `touch` is `ExecutePendingOperations` of an accessor with the
given clock. The loops ask for the inputs and then the target; a dot product and an aggregation ask
for the target when the value is there. -/
def execute (touch : ℕ → LazyState V → LazyState V) (p : PendingOperation V) (s : LazyState V) : LazyState V :=
  let s := p.specialize s
  if s.thrown then s
  else
    let s := p.operation.inputs.foldl (fun s x => touch (s.mclock x.accessor) s) s
    let inPlace := fun out : NdArray => p.apply (touch (s.mclock out.accessor) s)
    match p.operation with
    | .aggregate f in1 =>
      let s' := touch p.clock s
      if s'.thrown then s'
      else { s' with
        result := Function.update s'.result p.clock (some (aggregateFlush (f.op false) in1 s.data))
        executed := s'.executed ++ [p.clock] }
    | .matmul add mul in1 in2 out =>
      if out.shape.elements = 1 then
        let s' := touch (s.mclock out.accessor) s
        if s'.thrown then s'
        else { s' with
          data := s'.data.set out.accessor out.shape.offset (combineAndAggregate add mul in1 in2 s.data)
          executed := s'.executed ++ [p.clock] }
      else inPlace out
    | .nullary _ out | .unary _ _ out | .binary _ _ _ out | .reduce _ _ _ out => inPlace out

end PendingOperation

namespace LazyState

/-- `ExtractUntilClock` and the execution of what it gives. The fuel bounds the depth of the calls. -/
def executeUntil : ℕ → ℕ → LazyState V → LazyState V
  | 0, _, s => s
  | fuel + 1, maxclock, s =>
    if s.thrown then s
    else (s.pending.takeWhile fun p => p.clock ≤ maxclock).foldl (fun s p => p.execute (executeUntil fuel) s)
      { s with pending := s.pending.dropWhile fun p => p.clock ≤ maxclock }

/-- Every call that executes anything takes operations off the list. -/
def executePendingOperations (maxclock : ℕ) (s : LazyState V) : LazyState V :=
  executeUntil s.pending.length maxclock s

/-- `Allocate`, and `Flush`. -/
def allocate (s : LazyState V) (a : Accessor) : LazyState V := s.executePendingOperations (s.mclock a)

/-- `AddOperation`. -/
def addOperation (s : LazyState V) (op : Operation V) (call : Call) : LazyState V :=
  { s with
    globalClock := s.globalClock + 1
    pending := s.pending ++ [⟨s.globalClock + 1, op, call⟩]
    mclock := match op.out? with
      | some out => Function.update s.mclock out.accessor (s.globalClock + 1)
      | none => s.mclock }

end LazyState

namespace PendingOperation

section
variable (p : PendingOperation V) (s : LazyState V)

/-- The look-up changes nothing but the dictionary, and may throw. -/
theorem specialize_eq : ∃ specialized thrown, p.specialize s = { s with specialized, thrown } := by
  unfold specialize
  split
  · exact ⟨s.specialized, s.thrown, rfl⟩
  split
  · split
    · exact ⟨s.specialized, s.thrown, rfl⟩
    · exact ⟨s.specialized, true, rfl⟩
  · exact ⟨_, s.thrown, rfl⟩

theorem pending_specialize : (p.specialize s).pending = s.pending := by
  obtain ⟨_, _, h⟩ := p.specialize_eq s
  rw [h]

theorem mclock_specialize : (p.specialize s).mclock = s.mclock := by
  obtain ⟨_, _, h⟩ := p.specialize_eq s
  rw [h]

theorem globalClock_specialize : (p.specialize s).globalClock = s.globalClock := by
  obtain ⟨_, _, h⟩ := p.specialize_eq s
  rw [h]

theorem data_specialize : (p.specialize s).data = s.data := by
  obtain ⟨_, _, h⟩ := p.specialize_eq s
  rw [h]

theorem executed_specialize : (p.specialize s).executed = s.executed := by
  obtain ⟨_, _, h⟩ := p.specialize_eq s
  rw [h]

end

end PendingOperation

/-! ## Fuel -/

section Fuel

variable {touch touch' : ℕ → LazyState V → LazyState V}

theorem foldl_inputs_pending_le (h : ∀ c s, (touch c s).pending.length ≤ s.pending.length) (xs : List NdArray)
    (s : LazyState V) :
    (xs.foldl (fun s x => touch (s.mclock x.accessor) s) s).pending.length ≤ s.pending.length := by
  induction xs generalizing s with
  | nil => exact le_rfl
  | cons x xs ih => exact (ih _).trans (h _ s)

theorem apply_pending (p : PendingOperation V) (s : LazyState V) : (p.apply s).pending = s.pending := by
  unfold PendingOperation.apply
  split <;> rfl

theorem execute_pending_le (h : ∀ c s, (touch c s).pending.length ≤ s.pending.length)
    (p : PendingOperation V) (s : LazyState V) :
    (p.execute touch s).pending.length ≤ s.pending.length := by
  have hinputs := foldl_inputs_pending_le h p.operation.inputs (p.specialize s)
  rw [p.pending_specialize] at hinputs
  have htarget := fun c => (h c _).trans hinputs
  unfold PendingOperation.execute
  simp only
  split
  · rw [p.pending_specialize]
  split
  · split <;> exact htarget _
  · split
    · split <;> exact htarget _
    · exact (apply_pending _ _).symm ▸ htarget _
  all_goals exact (apply_pending _ _).symm ▸ htarget _

theorem foldl_execute_pending_le (h : ∀ c s, (touch c s).pending.length ≤ s.pending.length)
    (work : List (PendingOperation V)) (s : LazyState V) :
    (work.foldl (fun s p => p.execute touch s) s).pending.length ≤ s.pending.length := by
  induction work generalizing s with
  | nil => exact le_rfl
  | cons p work ih => exact (ih _).trans (execute_pending_le h p s)

theorem execute_congr {n : ℕ} (h : ∀ c s, (touch c s).pending.length ≤ s.pending.length)
    (heq : ∀ c s, s.pending.length ≤ n → touch c s = touch' c s) (p : PendingOperation V) (s : LazyState V)
    (hs : s.pending.length ≤ n) : p.execute touch s = p.execute touch' s := by
  rw [← p.pending_specialize] at hs
  have hinputs : ∀ (xs : List NdArray) (s : LazyState V), s.pending.length ≤ n →
      xs.foldl (fun s x => touch (s.mclock x.accessor) s) s =
        xs.foldl (fun s x => touch' (s.mclock x.accessor) s) s := by
    intro xs
    induction xs with
    | nil => exact fun s _ => rfl
    | cons x xs ih =>
      intro s hs
      rw [List.foldl_cons, List.foldl_cons, ← heq _ s hs]
      exact ih _ ((h _ s).trans hs)
  have hle := (foldl_inputs_pending_le h p.operation.inputs (p.specialize s)).trans hs
  unfold PendingOperation.execute
  simp only
  rw [← hinputs p.operation.inputs (p.specialize s) hs]
  simp only [heq _ _ hle]

theorem foldl_execute_congr {n : ℕ} (h : ∀ c s, (touch c s).pending.length ≤ s.pending.length)
    (heq : ∀ c s, s.pending.length ≤ n → touch c s = touch' c s) (work : List (PendingOperation V))
    (s : LazyState V) (hs : s.pending.length ≤ n) :
    work.foldl (fun s p => p.execute touch s) s = work.foldl (fun s p => p.execute touch' s) s := by
  induction work generalizing s with
  | nil => rfl
  | cons p work ih =>
    rw [List.foldl_cons, List.foldl_cons, ← execute_congr h heq p s hs]
    exact ih _ ((execute_pending_le h p s).trans hs)

end Fuel

namespace LazyState

theorem executeUntil_pending_le (fuel c : ℕ) (s : LazyState V) :
    (executeUntil fuel c s).pending.length ≤ s.pending.length := by
  induction fuel generalizing c s with
  | zero => exact le_rfl
  | succ fuel ih =>
    rw [executeUntil]
    split
    · exact le_rfl
    · refine (foldl_execute_pending_le ih _ _).trans ?_
      exact (List.dropWhile_suffix _).length_le

theorem executeUntil_succ {fuel : ℕ} (c : ℕ) (s : LazyState V) (h : s.pending.length ≤ fuel) :
    executeUntil (fuel + 1) c s = executeUntil fuel c s := by
  induction fuel generalizing c s with
  | zero =>
    have hnil : s.pending = [] := List.eq_nil_of_length_eq_zero (by omega)
    simp only [executeUntil, hnil, List.takeWhile_nil, List.dropWhile_nil, List.foldl_nil]
    rw [← hnil, ite_self]
  | succ fuel ih =>
    rw [executeUntil, executeUntil]
    by_cases ht : s.thrown = true
    · rw [if_pos ht, if_pos ht]
    rw [if_neg ht, if_neg ht]
    cases hwork : s.pending.takeWhile fun p => decide (p.clock ≤ c) with
    | nil => rfl
    | cons p work =>
      -- at least one operation has left the list
      have hsplit := congrArg List.length (List.takeWhile_append_dropWhile (l := s.pending)
        (p := fun p => decide (p.clock ≤ c)))
      rw [hwork] at hsplit
      simp only [List.length_append, List.length_cons] at hsplit
      exact foldl_execute_congr (executeUntil_pending_le _) ih _ _ (by simp only; omega)

theorem executeUntil_of_le {fuel : ℕ} (c : ℕ) (s : LazyState V) (h : s.pending.length ≤ fuel) :
    executeUntil fuel c s = s.executePendingOperations c := by
  induction fuel, h using Nat.le_induction with
  | base => rfl
  | succ fuel h ih => rw [executeUntil_succ c s h, ih]

/-- `ExecutePendingOperations` without the fuel: it extracts the operations up to the clock and
executes them, each with calls to itself. -/
theorem executePendingOperations_eq (c : ℕ) (s : LazyState V) :
    s.executePendingOperations c =
      if s.thrown then s
      else (s.pending.takeWhile fun p => p.clock ≤ c).foldl (fun s p => p.execute executePendingOperations s)
        { s with pending := s.pending.dropWhile fun p => p.clock ≤ c } := by
  rw [← executeUntil_of_le c s (Nat.le_succ s.pending.length), executeUntil]
  refine congrArg (ite _ s) ?_
  apply foldl_execute_congr (executeUntil_pending_le _) (fun c s' h => executeUntil_of_le c s' h)
  exact (List.dropWhile_suffix _).length_le

end LazyState

/-! ## Programs -/

inductive Action (V : Type)
  /-- An entry point of `UFunc`. -/
  | apply (op : Operation V) (call : Call)
  /-- The indexer of the accessor. -/
  | get (a : Accessor) (i : ℕ)
  | set (a : Accessor) (i : ℕ) (v : V)
  /-- The indexer of `Value`. -/
  | getValue (x : NdArray) (index : List ℕ)
  | setValue (x : NdArray) (index : List ℕ) (v : V)
  | flush (a : Accessor)

def Data.get? (m : Data V) (a : Accessor) (i : ℕ) : Option V := if i < a.size then some (m a i) else none

def Data.put (m : Data V) (a : Accessor) (i : ℕ) (v : V) : Data V := if i < a.size then m.set a i v else m

namespace LazyState

/-- The entry points for `ILazyAccessor`s; `Aggregate_Entry` reads its result at once. -/
def apply (s : LazyState V) (op : Operation V) (call : Call) : LazyState V × Option V :=
  if op.compatible then
    let s' := s.addOperation op call
    match op with
    | .aggregate _ _ =>
      let s'' := s'.executePendingOperations s'.globalClock
      (s'', s''.result s'.globalClock)
    | _ => (s', none)
  else (s, none)

def get (s : LazyState V) (a : Accessor) (i : ℕ) : LazyState V × Option V :=
  let s' := s.allocate a
  (s', if s'.thrown then none else s'.data.get? a i)

def set (s : LazyState V) (a : Accessor) (i : ℕ) (v : V) : LazyState V × Option V :=
  let s' := s.allocate a
  (if s'.thrown then s' else { s' with data := s'.data.put a i v }, none)

def step (s : LazyState V) (act : Action V) : LazyState V × Option V :=
  if s.thrown then (s, none)
  else match act with
    | .apply op call => s.apply op call
    | .get a i => s.get a i
    | .set a i v => s.set a i v
    | .getValue x index =>
      match x.valueIndex index with
      | some i => s.get x.accessor i
      | none => (s, none)
    | .setValue x index v =>
      match x.valueIndex index with
      | some i => s.set x.accessor i v
      | none => (s, none)
    | .flush a => (s.allocate a, none)

end LazyState

/-- The accessor that a step writes an element of. -/
def Action.written? : Action V → Option Accessor
  | .set a i _ => if i < a.size then some a else none
  | .setValue x index _ => (x.valueIndex index).bind fun i => if i < x.accessor.size then some x.accessor else none
  | _ => none

/-- The same on `DefaultAccessor`s. -/
def Data.step (m : Data V) : Action V → Data V × Option V
  | .apply op _ => if op.compatible then (op.flush true m, op.value? true m) else (m, none)
  | .get a i => (m, m.get? a i)
  | .set a i v => (m.put a i v, none)
  | .getValue x index => (m, (x.valueIndex index).bind (m.get? x.accessor))
  | .setValue x index v =>
    match x.valueIndex index with
    | some i => (m.put x.accessor i v, none)
    | none => (m, none)
  | .flush _ => (m, none)

/-- A program: the state it ends in and what each of its steps returns. -/
def runActions {σ : Type} (step : σ → Action V → σ × Option V) : σ → List (Action V) → σ × List (Option V)
  | s, [] => (s, [])
  | s, act :: acts =>
    let t := step s act
    let r := runActions step t.1 acts
    (r.1, t.2 :: r.2)

theorem runActions_append {σ : Type} (step : σ → Action V → σ × Option V) (s : σ) (as bs : List (Action V)) :
    (runActions step s (as ++ bs)).1 = (runActions step (runActions step s as).1 bs).1 := by
  induction as generalizing s with
  | nil => rfl
  | cons a as ih => exact ih _

/-! ## When the order is kept -/

namespace LazyState

/-- Of the elementwise operations of a list, those with one operator and one type of target have inputs of the
same types, for which the method is made if there is one already. -/
def Agree (s : LazyState V) (work : List (PendingOperation V)) : Prop :=
  ∀ p ∈ work, p.operation.elementwise = true →
    (∀ inputs ∈ s.specialized p.call.target p.call.operator, inputs = p.call.inputs) ∧
    ∀ q ∈ work, q.operation.elementwise = true → q.call.target = p.call.target →
      q.call.operator = p.call.operator → q.call.inputs = p.call.inputs

/-- Every operand of an operation that is due by clock `c` has been the target of operations due by
`c` only, and the due operations agree on their types. -/
def Settled (s : LazyState V) (c : ℕ) : Prop :=
  (∀ p ∈ s.pending, p.clock ≤ c → ∀ a ∈ p.operation.accessors, s.mclock a ≤ c) ∧
    s.Agree (s.pending.takeWhile fun p => p.clock ≤ c)

/-- No operation that an access to `a` leaves pending reads `a`. -/
def Unread (s : LazyState V) (a : Accessor) : Prop :=
  ∀ p ∈ s.pending, s.mclock a < p.clock → ∀ x ∈ p.operation.inputs, x.accessor ≠ a

instance decidableAgree (s : LazyState V) (work : List (PendingOperation V)) : Decidable (s.Agree work) :=
  inferInstanceAs (Decidable (∀ p ∈ work, p.operation.elementwise = true →
    (∀ inputs ∈ s.specialized p.call.target p.call.operator, inputs = p.call.inputs) ∧
    ∀ q ∈ work, q.operation.elementwise = true → q.call.target = p.call.target →
      q.call.operator = p.call.operator → q.call.inputs = p.call.inputs))

instance decidableSettled (s : LazyState V) (c : ℕ) : Decidable (s.Settled c) :=
  inferInstanceAs (Decidable ((∀ p ∈ s.pending, p.clock ≤ c → ∀ a ∈ p.operation.accessors, s.mclock a ≤ c) ∧
    s.Agree _))

instance decidableUnread (s : LazyState V) (a : Accessor) : Decidable (s.Unread a) :=
  inferInstanceAs (Decidable (∀ p ∈ s.pending, s.mclock a < p.clock → ∀ x ∈ p.operation.inputs, x.accessor ≠ a))

/-- A step that keeps the order of the reads and writes. -/
def Orderly (s : LazyState V) : Action V → Prop
  | .apply op _ => op.compatible = true → op.rewritesScalar = false ∧ op.keepsOperator = true ∧
    (op.out?.isNone → s.Agree s.pending)
  | .get a _ | .flush a => s.Settled (s.mclock a)
  | .set a i _ => s.Settled (s.mclock a) ∧ (i < a.size → s.Unread a)
  | .getValue x index => (x.valueIndex index).isSome → s.Settled (s.mclock x.accessor)
  | .setValue x index _ =>
    ∀ i ∈ x.valueIndex index, s.Settled (s.mclock x.accessor) ∧ (i < x.accessor.size → s.Unread x.accessor)

instance decidableOrderly (s : LazyState V) : (act : Action V) → Decidable (s.Orderly act)
  | .apply op _ => inferInstanceAs (Decidable (op.compatible = true →
      op.rewritesScalar = false ∧ op.keepsOperator = true ∧ (op.out?.isNone → s.Agree s.pending)))
  | .get a _ | .flush a => inferInstanceAs (Decidable (s.Settled (s.mclock a)))
  | .set a i _ => inferInstanceAs (Decidable (s.Settled (s.mclock a) ∧ (i < a.size → s.Unread a)))
  | .getValue x index =>
    inferInstanceAs (Decidable ((x.valueIndex index).isSome → s.Settled (s.mclock x.accessor)))
  | .setValue x index _ => inferInstanceAs (Decidable (∀ i ∈ x.valueIndex index,
      s.Settled (s.mclock x.accessor) ∧ (i < x.accessor.size → s.Unread x.accessor)))

def OrderlyRun : LazyState V → List (Action V) → Prop
  | _, [] => True
  | s, act :: acts => s.Orderly act ∧ OrderlyRun (s.step act).1 acts

instance decidableOrderlyRun : (s : LazyState V) → (acts : List (Action V)) → Decidable (s.OrderlyRun acts)
  | _, [] => inferInstanceAs (Decidable True)
  | s, act :: acts =>
    have := decidableOrderlyRun (s.step act).1 acts
    inferInstanceAs (Decidable (s.Orderly act ∧ (s.step act).1.OrderlyRun acts))

theorem orderlyRun_append {s : LazyState V} {as bs : List (Action V)} :
    s.OrderlyRun (as ++ bs) ↔ s.OrderlyRun as ∧ (runActions step s as).1.OrderlyRun bs := by
  induction as generalizing s with
  | nil => simp [OrderlyRun, runActions]
  | cons act as ih =>
    show s.Orderly act ∧ (s.step act).1.OrderlyRun (as ++ bs) ↔ _
    rw [ih, ← and_assoc]
    rfl

/-! ## An access in order -/

theorem executePendingOperations_of_lt {c : ℕ} {s : LazyState V} (h : ∀ q ∈ s.pending, c < q.clock) :
    s.executePendingOperations c = s := by
  have htake : s.pending.takeWhile (fun p => decide (p.clock ≤ c)) = [] := by
    rw [List.takeWhile_eq_nil_iff]
    intro hlen
    have := h _ (List.getElem_mem hlen)
    simpa using this
  have hdrop : s.pending.dropWhile (fun p => decide (p.clock ≤ c)) = s.pending := by
    have := List.takeWhile_append_dropWhile (l := s.pending) (p := fun p => decide (p.clock ≤ c))
    rwa [htake, List.nil_append] at this
  rw [executePendingOperations_eq, htake, hdrop]
  exact ite_self s

theorem specialize_of_not_elementwise {p : PendingOperation V} (h : p.operation.elementwise = false)
    (s : LazyState V) : p.specialize s = s := if_pos (Or.inr h)

theorem apply_of_running {s : LazyState V} (h : s.thrown = false) (p : PendingOperation V) :
    p.apply s = { s with
      data := p.operation.flush false s.data
      result := match p.operation.value? false s.data with
        | some v => Function.update s.result p.clock (some v)
        | none => s.result
      executed := s.executed ++ [p.clock] } := if_neg (by simp [h])

/-- An operation whose operands no pending operation is going to write executes at once. -/
theorem execute_eq_apply {p : PendingOperation V} {s : LazyState V} (hrun : (p.specialize s).thrown = false)
    (hown : ∀ q ∈ s.pending, p.clock < q.clock)
    (hquiet : ∀ a ∈ p.operation.accessors, ∀ q ∈ s.pending, s.mclock a < q.clock) :
    p.execute executePendingOperations s = p.apply (p.specialize s) := by
  rw [← p.pending_specialize] at hown hquiet
  rw [← p.mclock_specialize] at hquiet
  unfold PendingOperation.execute
  generalize p.specialize s = s at hrun hown hquiet
  simp only [hrun, Bool.false_eq_true, if_false]
  have htouch : ∀ a ∈ p.operation.accessors, s.executePendingOperations (s.mclock a) = s :=
    fun a ha => executePendingOperations_of_lt (hquiet a ha)
  have hinputs : ∀ xs : List NdArray, (∀ x ∈ xs, x.accessor ∈ p.operation.accessors) →
      xs.foldl (fun s x => s.executePendingOperations (s.mclock x.accessor)) s = s := by
    intro xs
    induction xs with
    | nil => exact fun _ => rfl
    | cons x xs ih =>
      intro hx
      rw [List.foldl_cons, htouch x.accessor (hx x List.mem_cons_self)]
      exact ih fun y hy => hx y (List.mem_cons_of_mem x hy)
  have htarget : ∀ out ∈ p.operation.out?, s.executePendingOperations (s.mclock out.accessor) = s := by
    intro out hout
    apply htouch
    exact List.mem_append_right _ (List.mem_map_of_mem (Option.mem_toList.mpr hout))
  have hsame := hinputs p.operation.inputs fun x hx => List.mem_append_left _ (List.mem_map_of_mem hx)
  obtain ⟨c, op, call⟩ := p
  cases op with
  | aggregate f in1 =>
    simp only [hsame, executePendingOperations_of_lt hown, hrun, apply_of_running hrun, Bool.false_eq_true, if_false]
    rfl
  | matmul add mul in1 in2 out =>
    simp only [hsame, htarget out rfl]
    split
    · rename_i hone
      simp [apply_of_running hrun, Operation.flush, Operation.value?, matmulFlush, hone, hrun]
    · rfl
  | nullary f out => simp only [hsame, htarget out rfl]
  | unary f in1 out => simp only [hsame, htarget out rfl]
  | binary f in1 in2 out => simp only [hsame, htarget out rfl]
  | reduce f axis in1 out => simp only [hsame, htarget out rfl]

theorem Agree.specialize {s : LazyState V} {p : PendingOperation V} {work : List (PendingOperation V)}
    (h : s.Agree (p :: work)) (hrun : s.thrown = false) :
    (p.specialize s).thrown = false ∧ (p.specialize s).Agree work := by
  have htail : s.Agree work := fun q hq hew =>
    (h q (List.mem_cons_of_mem p hq) hew).imp_right fun hall r hr => hall r (List.mem_cons_of_mem p hr)
  cases hp : p.operation.elementwise with
  | false =>
    rw [specialize_of_not_elementwise hp]
    exact ⟨hrun, htail⟩
  | true =>
    obtain ⟨hfound, hsame⟩ := h p List.mem_cons_self hp
    unfold PendingOperation.specialize
    rw [if_neg (by simp [hrun, hp])]
    cases hlook : s.specialized p.call.target p.call.operator with
    | some inputs =>
      simp only [hfound inputs hlook, if_true]
      exact ⟨hrun, htail⟩
    | none =>
      refine ⟨hrun, fun q hq hew => ⟨fun inputs hinputs => ?_, (htail q hq hew).2⟩⟩
      simp only [Function.update_apply] at hinputs
      split at hinputs
      · next htarget =>
        rw [Function.update_apply] at hinputs
        split at hinputs
        · next hoperator =>
          obtain rfl := Option.some.inj hinputs
          exact (hsame q (List.mem_cons_of_mem p hq) hew htarget hoperator).symm
        · exact (htail q hq hew).1 inputs (htarget ▸ hinputs)
      · exact (htail q hq hew).1 inputs hinputs

/-- A call without an exception. -/
def invoke (s : LazyState V) (p : PendingOperation V) : LazyState V := p.apply (p.specialize s)

theorem Agree.invoke {s : LazyState V} {p : PendingOperation V} {work : List (PendingOperation V)}
    (h : s.Agree (p :: work)) (hrun : s.thrown = false) :
    (s.invoke p).thrown = false ∧ (s.invoke p).Agree work := by
  obtain ⟨hrun', hagree⟩ := h.specialize hrun
  unfold LazyState.invoke
  rw [apply_of_running hrun']
  exact ⟨hrun', hagree⟩

theorem invoke_pending (s : LazyState V) (p : PendingOperation V) : (s.invoke p).pending = s.pending :=
  (apply_pending p _).trans (p.pending_specialize s)

theorem invoke_mclock (s : LazyState V) (p : PendingOperation V) : (s.invoke p).mclock = s.mclock := by
  rw [← p.mclock_specialize s, LazyState.invoke, PendingOperation.apply]
  split <;> rfl

theorem foldl_execute_eq_invoke {c : ℕ} (work : List (PendingOperation V)) (s : LazyState V)
    (hrun : s.thrown = false) (hagree : s.Agree work) (hrest : ∀ q ∈ s.pending, c < q.clock)
    (hwork : ∀ p ∈ work, p.clock ≤ c) (hquiet : ∀ p ∈ work, ∀ a ∈ p.operation.accessors, s.mclock a ≤ c) :
    work.foldl (fun s p => p.execute executePendingOperations s) s = work.foldl invoke s := by
  induction work generalizing s with
  | nil => rfl
  | cons p work ih =>
    have hp : p.execute executePendingOperations s = s.invoke p := by
      apply execute_eq_apply (hagree.specialize hrun).1
      · exact fun q hq => (hwork p List.mem_cons_self).trans_lt (hrest q hq)
      · exact fun a ha q hq => (hquiet p List.mem_cons_self a ha).trans_lt (hrest q hq)
    rw [List.foldl_cons, List.foldl_cons, hp]
    obtain ⟨hrun', hagree'⟩ := hagree.invoke hrun
    refine ih (s.invoke p) hrun' hagree' ?_ (fun q hq => hwork q (List.mem_cons_of_mem p hq)) ?_
    · rw [invoke_pending]
      exact hrest
    · rw [invoke_mclock]
      exact fun q hq => hquiet q (List.mem_cons_of_mem p hq)

theorem lt_of_mem_dropWhile {c : ℕ} {l : List (PendingOperation V)} (h : l.Pairwise fun p q => p.clock < q.clock)
    {q : PendingOperation V} (hq : q ∈ l.dropWhile fun p => p.clock ≤ c) : c < q.clock := by
  induction l with
  | nil => cases hq
  | cons p l ih =>
    obtain ⟨hp, hl⟩ := List.pairwise_cons.mp h
    by_cases hle : p.clock ≤ c
    · rw [List.dropWhile_cons_of_pos (by simpa using hle)] at hq
      exact ih hl hq
    · rw [List.dropWhile_cons_of_neg (by simpa using hle)] at hq
      obtain rfl | hq := List.mem_cons.mp hq
      · omega
      · have := hp q hq
        omega

theorem executePendingOperations_of_settled {c : ℕ} {s : LazyState V} (hrun : s.thrown = false)
    (hsorted : s.pending.Pairwise fun p q => p.clock < q.clock) (h : s.Settled c) :
    s.executePendingOperations c =
      (s.pending.takeWhile fun p => p.clock ≤ c).foldl invoke
        { s with pending := s.pending.dropWhile fun p => p.clock ≤ c } := by
  rw [executePendingOperations_eq, if_neg (by simp [hrun])]
  have hle : ∀ p ∈ s.pending.takeWhile (fun p => decide (p.clock ≤ c)), p.clock ≤ c :=
    fun p hp => by simpa using List.mem_takeWhile_imp hp
  apply foldl_execute_eq_invoke (c := c)
  · exact hrun
  · exact h.2
  · exact fun q hq => lt_of_mem_dropWhile hsorted hq
  · exact hle
  · exact fun p hp => h.1 p ((List.takeWhile_prefix _).subset hp) (hle p hp)

/-! ## The pending operations are what the arrays lack -/

/-- The operations of a list, one after the other. -/
def flushAll (work : List (PendingOperation V)) (m : Data V) : Data V :=
  work.foldl (fun m p => p.operation.flush false m) m

/-- The state of a lazy program against the arrays `m` of the other one. -/
structure Refines (s : LazyState V) (m : Data V) : Prop where
  running : s.thrown = false
  clocks : s.executed ++ s.pending.map (·.clock) = List.range' 1 s.globalClock
  bound : ∀ a, s.mclock a ≤ s.globalClock
  target : ∀ p ∈ s.pending, ∃ out, p.operation.out? = some out ∧ p.clock ≤ s.mclock out.accessor
  data : flushAll s.pending s.data = m

theorem foldl_invoke (work : List (PendingOperation V)) (s : LazyState V) (hrun : s.thrown = false)
    (hagree : s.Agree work) :
    (work.foldl invoke s).pending = s.pending ∧ (work.foldl invoke s).mclock = s.mclock ∧
      (work.foldl invoke s).globalClock = s.globalClock ∧ (work.foldl invoke s).data = flushAll work s.data ∧
      (work.foldl invoke s).executed = s.executed ++ work.map (·.clock) ∧ (work.foldl invoke s).thrown = false := by
  induction work generalizing s with
  | nil => exact ⟨rfl, rfl, rfl, rfl, (List.append_nil _).symm, hrun⟩
  | cons p work ih =>
    obtain ⟨hrun', hagree'⟩ := hagree.invoke hrun
    obtain ⟨hp, hm, hg, hd, he, ht⟩ := ih (s.invoke p) hrun' hagree'
    rw [List.foldl_cons]
    refine ⟨hp.trans (invoke_pending s p), hm.trans (invoke_mclock s p), hg.trans ?_, hd.trans ?_, he.trans ?_, ht⟩
    all_goals rw [LazyState.invoke, apply_of_running (hagree.specialize hrun).1]
    · exact p.globalClock_specialize s
    · rw [p.data_specialize]
      rfl
    · rw [p.executed_specialize, List.append_assoc]
      rfl

theorem flushAll_append (as bs : List (PendingOperation V)) (m : Data V) :
    flushAll (as ++ bs) m = flushAll bs (flushAll as m) := List.foldl_append

theorem flushAll_frame {a : Accessor} {work : List (PendingOperation V)}
    (h : ∀ p ∈ work, ∀ out ∈ p.operation.out?, out.accessor ≠ a) (m : Data V) : flushAll work m a = m a := by
  induction work generalizing m with
  | nil => rfl
  | cons p work ih =>
    have hp : p.operation.flush false m a = m a := by
      apply (p.operation.footprint_flush false).frame
      intro hm
      obtain ⟨out, hout, ha⟩ := Option.mem_map.mp hm
      exact h p List.mem_cons_self out hout ha
    exact (ih (fun q hq => h q (List.mem_cons_of_mem p hq)) _).trans hp

theorem flushAll_set {a : Accessor} {work : List (PendingOperation V)}
    (h : ∀ p ∈ work, a ∉ p.operation.accessors) (i : ℕ) (v : V) (m : Data V) :
    flushAll work (m.set a i v) = (flushAll work m).set a i v := by
  apply foldl_comm (fun (m : Data V) (p : PendingOperation V) => p.operation.flush false m)
    (fun m : Data V => m.set a i v)
  exact fun p hp m => Operation.flush_set false (h p hp) i v m

namespace Refines

variable {s : LazyState V} {m : Data V}

theorem start (m : Data V) : Refines { data := m } m :=
  ⟨rfl, rfl, fun _ => le_rfl, fun _ hp => (by cases hp), rfl⟩

theorem sorted (h : s.Refines m) : s.pending.Pairwise fun p q => p.clock < q.clock := by
  have hall : (s.executed ++ s.pending.map (·.clock)).Pairwise (· < ·) := by
    rw [h.clocks]
    exact List.pairwise_lt_range'
  exact List.pairwise_map.mp (List.pairwise_append.mp hall).2.1

theorem clock_le (h : s.Refines m) {p : PendingOperation V} (hp : p ∈ s.pending) : p.clock ≤ s.globalClock := by
  have hmem : p.clock ∈ List.range' 1 s.globalClock := by
    rw [← h.clocks]
    exact List.mem_append_right _ (List.mem_map_of_mem hp)
  have := List.mem_range'_1.mp hmem
  omega

/-- An access executes operations from the front of the list. -/
theorem execute (h : s.Refines m) {c : ℕ} (hs : s.Settled c) :
    (s.executePendingOperations c).Refines m ∧ (s.executePendingOperations c).mclock = s.mclock ∧
      (s.executePendingOperations c).pending = s.pending.dropWhile (fun p => p.clock ≤ c) := by
  have hsplit := List.takeWhile_append_dropWhile (l := s.pending) (p := fun p => decide (p.clock ≤ c))
  rw [executePendingOperations_of_settled h.running h.sorted hs]
  obtain ⟨hp, hm, hg, hd, he, ht⟩ := foldl_invoke (s.pending.takeWhile fun p => decide (p.clock ≤ c))
    { s with pending := s.pending.dropWhile fun p => decide (p.clock ≤ c) } h.running hs.2
  refine ⟨⟨ht, ?_, ?_, ?_, ?_⟩, hm, hp⟩
  · rw [he, hp, hg, List.append_assoc, ← List.map_append, hsplit, h.clocks]
  · intro a
    rw [hm, hg]
    exact h.bound a
  · intro p hp'
    rw [hp] at hp'
    rw [hm]
    exact h.target p ((List.dropWhile_suffix _).subset hp')
  · rw [hd, hp, ← flushAll_append, hsplit]
    exact h.data

/-- No operation that is pending after an access to `a` has `a` for its target. -/
theorem target_ne (h : s.Refines m) {a : Accessor} (hlt : ∀ q ∈ s.pending, s.mclock a < q.clock) :
    ∀ p ∈ s.pending, ∀ out ∈ p.operation.out?, out.accessor ≠ a := by
  intro p hp out hout ha
  obtain ⟨out', hout', hle⟩ := h.target p hp
  obtain rfl : out = out' := Option.some.inj (hout.symm.trans hout')
  rw [ha] at hle
  have := hlt p hp
  omega

theorem not_mem_accessors (h : s.Refines m) {a : Accessor} (hlt : ∀ q ∈ s.pending, s.mclock a < q.clock)
    (hunread : s.Unread a) : ∀ p ∈ s.pending, a ∉ p.operation.accessors := by
  intro p hp ha
  obtain ha | ha := List.mem_append.mp ha
  · obtain ⟨x, hx, rfl⟩ := List.mem_map.mp ha
    exact hunread p hp (hlt p hp) x hx rfl
  · obtain ⟨out, hout, rfl⟩ := List.mem_map.mp ha
    exact h.target_ne hlt p hp out (Option.mem_toList.mp hout) rfl

theorem read (h : s.Refines m) {a : Accessor} (hlt : ∀ q ∈ s.pending, s.mclock a < q.clock) : s.data a = m a := by
  rw [← h.data, flushAll_frame (h.target_ne hlt)]

theorem write (h : s.Refines m) {a : Accessor} (ha : ∀ p ∈ s.pending, a ∉ p.operation.accessors) (i : ℕ) (v : V) :
    Refines { s with data := s.data.set a i v } (m.set a i v) := by
  refine ⟨h.running, h.clocks, h.bound, h.target, ?_⟩
  show flushAll s.pending (s.data.set a i v) = m.set a i v
  rw [flushAll_set ha, h.data]

/-! ## Steps and runs -/

theorem allocate (h : s.Refines m) {a : Accessor} (hs : s.Settled (s.mclock a)) :
    (s.allocate a).Refines m ∧ (∀ q ∈ (s.allocate a).pending, (s.allocate a).mclock a < q.clock) ∧
      (∀ q ∈ (s.allocate a).pending, q ∈ s.pending) := by
  obtain ⟨href, hm, hp⟩ := h.execute hs
  refine ⟨href, ?_, ?_⟩
  · intro q hq
    rw [LazyState.allocate, hp] at hq
    rw [LazyState.allocate, hm]
    exact lt_of_mem_dropWhile h.sorted hq
  · intro q hq
    rw [LazyState.allocate, hp] at hq
    exact (List.dropWhile_suffix _).subset hq

theorem mclock_allocate (h : s.Refines m) {a : Accessor} (hs : s.Settled (s.mclock a)) :
    (s.allocate a).mclock = s.mclock := (h.execute hs).2.1

theorem get (h : s.Refines m) {a : Accessor} (hs : s.Settled (s.mclock a)) (i : ℕ) :
    (s.get a i).1.Refines m ∧ (s.get a i).2 = m.get? a i := by
  obtain ⟨href, hlt, _⟩ := h.allocate hs
  refine ⟨href, ?_⟩
  simp only [LazyState.get, href.running, Data.get?, href.read hlt, Bool.false_eq_true, if_false]

theorem unread_allocate (h : s.Refines m) {a : Accessor} (hs : s.Settled (s.mclock a)) (hunread : s.Unread a) :
    (s.allocate a).Unread a := by
  obtain ⟨_, _, hsub⟩ := h.allocate hs
  intro p hp hlt
  rw [h.mclock_allocate hs] at hlt
  exact hunread p (hsub p hp) hlt

/-- After an element write no pending operation uses the array. -/
theorem set (h : s.Refines m) {a : Accessor} (hs : s.Settled (s.mclock a)) {i : ℕ} (hunread : i < a.size → s.Unread a)
    (v : V) : (s.set a i v).1.Refines (m.put a i v) ∧
      (i < a.size → ∀ p ∈ (s.set a i v).1.pending, a ∉ p.operation.accessors) := by
  obtain ⟨href, hlt, _⟩ := h.allocate hs
  have hnot := fun hi => href.not_mem_accessors hlt (h.unread_allocate hs (hunread hi))
  have hset : s.set a i v = ({ s.allocate a with data := (s.allocate a).data.put a i v }, none) :=
    congrArg (·, none) (if_neg (by simp [href.running]))
  rw [hset]
  refine ⟨?_, hnot⟩
  by_cases hi : i < a.size
  · simp only [Data.put, if_pos hi]
    exact href.write (hnot hi) i v
  · simp only [Data.put, if_neg hi]
    exact href

theorem addOperation (h : s.Refines m) {op : Operation V} {out : NdArray} (hout : op.out? = some out) (call : Call) :
    (s.addOperation op call).Refines (op.flush false m) := by
  refine ⟨h.running, ?_, ?_, ?_, ?_⟩
  · simp only [LazyState.addOperation, List.map_append, List.map_cons, List.map_nil]
    rw [← List.append_assoc, h.clocks, List.range'_1_concat, Nat.add_comm 1]
  · intro a
    simp only [LazyState.addOperation, hout, Function.update_apply]
    have := h.bound a
    split <;> omega
  · intro p hp
    simp only [LazyState.addOperation, hout] at hp ⊢
    obtain hp | hp := List.mem_append.mp hp
    · obtain ⟨out', hout', hle⟩ := h.target p hp
      refine ⟨out', hout', ?_⟩
      have := h.clock_le hp
      rw [Function.update_apply]
      split <;> omega
    · obtain rfl := List.mem_singleton.mp hp
      exact ⟨out, hout, by simp⟩
  · show flushAll (s.pending ++ [_]) s.data = _
    rw [flushAll_append, h.data]
    rfl

/-- An aggregation executes everything that is pending and is the last operation to be executed. -/
theorem aggregate (h : s.Refines m) (f : Operator V) (in1 : NdArray) (call : Call) (hagree : s.Agree s.pending) :
    (s.apply (.aggregate f in1) call).1.Refines m ∧
      (s.apply (.aggregate f in1) call).2 = some (aggregateFlush (f.op false) in1 m) := by
  let s' := s.addOperation (.aggregate f in1) call
  have hpending : s'.pending = s.pending ++ [⟨s'.globalClock, .aggregate f in1, call⟩] := rfl
  have hle : ∀ p ∈ s'.pending, p.clock ≤ s'.globalClock := by
    intro p hp
    obtain hp | hp := List.mem_append.mp hp
    · exact (h.clock_le hp).trans (Nat.le_succ _)
    · obtain rfl := List.mem_singleton.mp hp
      exact le_rfl
  have hsorted : s'.pending.Pairwise fun p q => p.clock < q.clock := by
    refine List.pairwise_append.mpr ⟨h.sorted, List.pairwise_singleton _ _, fun p hp q hq => ?_⟩
    obtain rfl := List.mem_singleton.mp hq
    exact Nat.lt_succ_of_le (h.clock_le hp)
  have htake : s'.pending.takeWhile (fun p => decide (p.clock ≤ s'.globalClock)) = s'.pending :=
    List.takeWhile_eq_self_iff.mpr fun p hp => by simpa using hle p hp
  have hdrop : s'.pending.dropWhile (fun p => decide (p.clock ≤ s'.globalClock)) = [] :=
    List.dropWhile_eq_nil_iff.mpr fun p hp => by simpa using hle p hp
  -- the aggregation is no elementwise operation
  have hmem : ∀ p ∈ s'.pending, p.operation.elementwise = true → p ∈ s.pending := by
    intro p hp hew
    obtain hp | hp := List.mem_append.mp hp
    · exact hp
    · obtain rfl := List.mem_singleton.mp hp
      cases hew
  have hagree' : s'.Agree s'.pending := fun p hp hew =>
    (hagree p (hmem p hp hew) hew).imp_right fun hall q hq hew' => hall q (hmem q hq hew') hew'
  have hsettled : s'.Settled s'.globalClock :=
    ⟨fun p _ _ a _ => (h.bound a).trans (Nat.le_succ _), by rw [htake]; exact hagree'⟩
  have hexec := executePendingOperations_of_settled (s := s') h.running hsorted hsettled
  rw [htake, hdrop] at hexec
  -- the pending operations, then the aggregation
  rw [hpending, List.foldl_append, List.foldl_cons, List.foldl_nil] at hexec
  obtain ⟨hp, hm, hg, hd, he, ht⟩ := foldl_invoke s.pending { s' with pending := [] } h.running hagree
  generalize s.pending.foldl invoke { s' with pending := [] } = t at hexec hp hm hg hd he ht
  simp only at hp hm hg he
  have hdata : t.data = m := hd.trans h.data
  rw [LazyState.invoke, specialize_of_not_elementwise rfl, apply_of_running ht] at hexec
  show (s'.executePendingOperations s'.globalClock).Refines m ∧
    (s'.executePendingOperations s'.globalClock).result s'.globalClock = _
  rw [hexec]
  refine ⟨⟨ht, ?_, ?_, ?_, ?_⟩, ?_⟩
  · simp only [hp, hg, he, List.map_nil, List.append_nil]
    show s.executed ++ _ ++ [s.globalClock + 1] = List.range' 1 (s.globalClock + 1)
    rw [h.clocks, List.range'_1_concat, Nat.add_comm 1]
  · intro a
    simp only [hm, hg]
    exact (h.bound a).trans (Nat.le_succ _)
  · intro p hp'
    simp [hp] at hp'
  · simp only [hp]
    exact hdata
  · simp only [Operation.value?, hdata, Function.update_self]

theorem apply (h : s.Refines m) {op : Operation V} {call : Call}
    (hs : op.compatible = true → op.rewritesScalar = false ∧ op.keepsOperator = true ∧
      (op.out?.isNone → s.Agree s.pending)) :
    (s.apply op call).1.Refines (m.step (.apply op call)).1 ∧ (s.apply op call).2 = (m.step (.apply op call)).2 := by
  by_cases hc : op.compatible = true
  · obtain ⟨hscalar, hkeeps, hagree⟩ := hs hc
    have hadd : ∀ out, op.out? = some out → (s.addOperation op call).Refines (op.flush true m) := by
      intro out hout
      rw [Operation.flush_dflt hc hscalar hkeeps]
      exact h.addOperation hout call
    cases op with
    | aggregate f in1 =>
      simp only [Data.step, if_pos hc, Operation.value?, Operation.op_dflt hkeeps]
      exact h.aggregate f in1 call (hagree rfl)
    | nullary f out =>
      simp only [LazyState.apply, Data.step, if_pos hc]
      exact ⟨hadd out rfl, rfl⟩
    | unary f in1 out =>
      simp only [LazyState.apply, Data.step, if_pos hc]
      exact ⟨hadd out rfl, rfl⟩
    | binary f in1 in2 out =>
      simp only [LazyState.apply, Data.step, if_pos hc]
      exact ⟨hadd out rfl, rfl⟩
    | reduce f axis in1 out =>
      simp only [LazyState.apply, Data.step, if_pos hc]
      exact ⟨hadd out rfl, rfl⟩
    | matmul add mul in1 in2 out =>
      simp only [LazyState.apply, Data.step, if_pos hc]
      exact ⟨hadd out rfl, rfl⟩
  · simp only [LazyState.apply, Data.step, if_neg hc]
    exact ⟨h, trivial⟩

/-- One orderly step on both sides. -/
theorem step (h : s.Refines m) {act : Action V} (ho : s.Orderly act) :
    (s.step act).1.Refines (m.step act).1 ∧ (s.step act).2 = (m.step act).2 ∧
      ∀ a ∈ act.written?, ∀ p ∈ (s.step act).1.pending, a ∉ p.operation.accessors := by
  have hstep : s.step act = _ := if_neg (by simp [h.running])
  rw [hstep]
  cases act with
  | apply op call => exact ⟨(h.apply ho).1, (h.apply ho).2, fun a ha => by simp [Action.written?] at ha⟩
  | get a i => exact ⟨(h.get ho i).1, (h.get ho i).2, fun a ha => by simp [Action.written?] at ha⟩
  | flush a => exact ⟨(h.allocate ho).1, rfl, fun a ha => by simp [Action.written?] at ha⟩
  | set a i v =>
    obtain ⟨href, hnot⟩ := h.set ho.1 ho.2 v
    refine ⟨href, rfl, fun b hb => ?_⟩
    simp only [Action.written?, Option.mem_def, Option.ite_none_right_eq_some, Option.some.injEq] at hb
    exact hb.2 ▸ hnot hb.1
  | getValue x index =>
    simp only [Data.step, LazyState.Orderly] at ho ⊢
    cases hi : x.valueIndex index with
    | none => exact ⟨h, rfl, fun a ha => by simp [Action.written?] at ha⟩
    | some i =>
      rw [hi] at ho
      exact ⟨(h.get (ho rfl) i).1, (h.get (ho rfl) i).2, fun a ha => by simp [Action.written?] at ha⟩
  | setValue x index v =>
    simp only [Data.step, LazyState.Orderly, Action.written?] at ho ⊢
    cases hi : x.valueIndex index with
    | none => exact ⟨h, rfl, fun a ha => by simp at ha⟩
    | some i =>
      obtain ⟨hs, hunread⟩ := ho i hi
      obtain ⟨href, hnot⟩ := h.set hs hunread v
      refine ⟨href, rfl, fun b hb => ?_⟩
      simp only [Option.bind_some, Option.mem_def, Option.ite_none_right_eq_some, Option.some.injEq] at hb
      exact hb.2 ▸ hnot hb.1

theorem run (h : s.Refines m) {acts : List (Action V)} (ho : s.OrderlyRun acts) :
    (runActions LazyState.step s acts).1.Refines (runActions Data.step m acts).1 ∧
      (runActions LazyState.step s acts).2 = (runActions Data.step m acts).2 := by
  induction acts generalizing s m with
  | nil => exact ⟨h, rfl⟩
  | cons act acts ih =>
    obtain ⟨href, hout, _⟩ := h.step ho.1
    obtain ⟨hrun, houts⟩ := ih href ho.2
    exact ⟨hrun, congrArg₂ List.cons hout houts⟩

/-- What is still pending when some arrays have been flushed has other targets. -/
theorem pending_flush (h : s.Refines m) {as : List Accessor} (ho : s.OrderlyRun (as.map .flush)) :
    ∀ p ∈ (runActions LazyState.step s (as.map .flush)).1.pending,
      p ∈ s.pending ∧ ∀ out ∈ p.operation.out?, out.accessor ∉ as := by
  induction as generalizing s with
  | nil => exact fun p hp => ⟨hp, fun out _ => List.not_mem_nil⟩
  | cons a as ih =>
    intro p hp
    obtain ⟨href, hlt, hsub⟩ := h.allocate ho.1
    have hstep : (s.step (.flush a)).1 = s.allocate a := congrArg Prod.fst (if_neg (by simp [h.running]))
    obtain ⟨hp', hrest⟩ := ih href (hstep ▸ ho.2) p (hstep ▸ hp)
    refine ⟨hsub p hp', fun out hout ha => ?_⟩
    obtain ha | ha := List.mem_cons.mp ha
    · exact href.target_ne hlt p hp' out hout ha
    · exact hrest out hout ha

end Refines

end LazyState

theorem runActions_flush (m : Data V) (as : List Accessor) :
    (runActions Data.step m (as.map .flush)).1 = m := by
  induction as with
  | nil => rfl
  | cons a as ih => exact ih

/-- Lazy evaluation cannot be seen in a program that keeps the order: every step returns what it
returns when operations are executed at once, and none throws; the operations are executed in the order they were
called, each once; a flush of the targets brings every array to its contents; and after an element
write no operation that uses the array is left to execute. -/
theorem lazyRun_eq_eagerRun (m : Data V) (acts : List (Action V))
    (h : LazyState.OrderlyRun { data := m } acts) :
    (runActions LazyState.step { data := m } acts).2 = (runActions Data.step m acts).2 ∧
      (let s := (runActions LazyState.step { data := m } acts).1
       s.thrown = false ∧ s.executed ++ s.pending.map (·.clock) = List.range' 1 s.globalClock ∧
        (∀ as : List Accessor, (∀ p ∈ s.pending, ∀ out ∈ p.operation.out?, out.accessor ∈ as) →
          s.OrderlyRun (as.map .flush) →
            (runActions LazyState.step s (as.map .flush)).1.pending = [] ∧
            (runActions LazyState.step s (as.map .flush)).1.data = (runActions Data.step m acts).1) ∧
        ∀ pre act, acts = pre ++ [act] → ∀ a ∈ act.written?, ∀ p ∈ s.pending, a ∉ p.operation.accessors) := by
  obtain ⟨href, houts⟩ := (LazyState.Refines.start m).run h
  refine ⟨houts, href.running, href.clocks, ?_, ?_⟩
  · intro as hcover hflush
    have hnil : (runActions LazyState.step (runActions LazyState.step { data := m } acts).1
        (as.map .flush)).1.pending = [] := by
      apply List.eq_nil_iff_forall_not_mem.mpr
      intro p hp
      obtain ⟨hp', hnot⟩ := href.pending_flush hflush p hp
      obtain ⟨out, hout, _⟩ := href.target p hp'
      exact hnot out hout (hcover p hp' out hout)
    have hdata := (href.run hflush).1.data
    rw [hnil, runActions_flush] at hdata
    exact ⟨hnil, hdata⟩
  · intro pre act hacts
    subst hacts
    obtain ⟨hpre, hact⟩ := LazyState.orderlyRun_append.mp h
    have hstep := ((LazyState.Refines.start m).run hpre).1.step hact.1
    rw [runActions_append]
    exact hstep.2.2

/-- A vector of two elements with an accessor of its own. -/
def vector (id : ℕ) : NdArray where
  accessor := ⟨id, 2⟩
  shape := ⟨0, [⟨2, 1⟩]⟩
  positive := by decide
  fits := Nat.le_refl 2

/-- An array of one element, seen as a vector of two. -/
def broadcastScalar (id : ℕ) : NdArray where
  accessor := ⟨id, 1⟩
  shape := ⟨0, [⟨2, 0⟩]⟩
  positive := by decide
  fits := Nat.le_refl 1

/-- `y = x + 1; x = x + 10; y.Value[0]`, with `x` updated in place. -/
def updateInPlace : List (Action ℕ) :=
  [.apply (.unary (· + 1) (vector 0) (vector 1)) ⟨0, 0, [0]⟩, .apply (.unary (· + 10) (vector 0) (vector 0)) ⟨1, 0, [0]⟩,
    .getValue (vector 1) [0]]

/-- `y = x + 1; x.Value[0] = 5; y.Value[0]`. -/
def updateElement : List (Action ℕ) :=
  [.apply (.unary (· + 1) (vector 0) (vector 1)) ⟨0, 0, [0]⟩, .setValue (vector 0) [0] 5, .getValue (vector 1) [0]]

/-- `x = x + 1` for a broadcast `x` of one element, and `x.Value[0]`. -/
def updateBroadcast : List (Action ℕ) :=
  [.apply (.unary (· + 1) (broadcastScalar 0) (broadcastScalar 0)) ⟨0, 0, [0]⟩, .getValue (broadcastScalar 0) [0]]

/-- The sum of `x`, `x` filled with ones, by an operator with a field. -/
def sumWithField : List (Action ℕ) :=
  [.apply (.nullary (fun _ => 1) (vector 0)) ⟨0, 0, []⟩,
    .apply (.aggregate { fresh := fun a _ => a, custom := some (· + ·) } (vector 0)) ⟨1, 0, [0]⟩]

/-- `ToInt32` of `x`, and then of `z`, whose elements have another type; `y.Value[0]; w.Value[0]`. -/
def convertBoth : List (Action ℕ) :=
  [.apply (.unary id (vector 0) (vector 1)) ⟨0, 0, [1]⟩, .apply (.unary id (vector 2) (vector 3)) ⟨0, 0, [2]⟩,
    .getValue (vector 1) [0], .getValue (vector 3) [0]]

/-- Five programs on arrays of zeroes that show it: the pending sum sees the later update of its
operand, and the later element write; a broadcast element is incremented twice, not once; the
fields of an operator are lost; and the second conversion finds the method of the first one, and throws. -/
theorem lazyRun_ne_eagerRun :
    ((runActions LazyState.step { data := fun _ _ => 0 } updateInPlace).2 = [none, none, some 11] ∧
      (runActions Data.step (fun _ _ => 0) updateInPlace).2 = [none, none, some 1] ∧
      (runActions LazyState.step { data := fun _ _ => 0 } updateInPlace).1.executed = [2, 1]) ∧
    ((runActions LazyState.step { data := fun _ _ => 0 } updateElement).2 = [none, none, some 6] ∧
      (runActions Data.step (fun _ _ => 0) updateElement).2 = [none, none, some 1]) ∧
    ((runActions LazyState.step { data := fun _ _ => 0 } updateBroadcast).2 = [none, some 2] ∧
      (runActions Data.step (fun _ _ => 0) updateBroadcast).2 = [none, some 1]) ∧
    ((runActions LazyState.step { data := fun _ _ => 0 } sumWithField).2 = [none, some 1] ∧
      (runActions Data.step (fun _ _ => 0) sumWithField).2 = [none, some 2]) ∧
    ((runActions LazyState.step { data := fun _ _ => 0 } convertBoth).2 = [none, none, some 0, none] ∧
      (runActions LazyState.step { data := fun _ _ => 0 } convertBoth).1.thrown = true ∧
      (runActions Data.step (fun _ _ => 0) convertBoth).2 = [none, none, some 0, some 0]) := by
  decide

/-- `y = x + 1; y.Value[0]; x = x + 10; x.Value[1] = 5; sum(x)`. -/
def updateAfterRead : List (Action ℕ) :=
  [.apply (.unary (· + 1) (vector 0) (vector 1)) ⟨0, 0, [0]⟩, .getValue (vector 1) [0],
    .apply (.unary (· + 10) (vector 0) (vector 0)) ⟨1, 0, [0]⟩, .setValue (vector 0) [1] 5,
    .apply (.aggregate { fresh := (· + ·) } (vector 0)) ⟨2, 0, [0]⟩]

theorem lazyRun_eq_eagerRun_updateAfterRead :
    (runActions LazyState.step { data := fun _ _ => 0 } updateAfterRead).2 =
        (runActions Data.step (fun _ _ => 0) updateAfterRead).2 ∧
      (runActions Data.step (fun _ _ => 0) updateAfterRead).2 = [none, some 1, none, none, some 15] :=
  ⟨(lazyRun_eq_eagerRun (fun _ _ => 0) updateAfterRead (by decide)).1, by decide⟩

end Bohrium.NumCil
