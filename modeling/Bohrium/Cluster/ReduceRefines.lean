import Bohrium.Cluster.VectorRun

/-! # Reductions on the cluster are sequential reductions -/
namespace Bohrium.Cluster
open Strided Network
set_option autoImplicit false

/-- `ufunc_reduce` on all processes, of a vector or of more dimensions. -/
theorem exists_ufuncReduce {V : Type} {I : Interp V} (hI : Copies I) (st : Stores) {worldsize : ℕ} (hws : 1 ≤ worldsize)
    {i : BhInstruction} {operation : BhOpcode} (hop : reduceOperation i.opcode = some operation) {b c : BhBase}
    (h : Reducible i b c) (hC : Combines I i.opcode operation b.type) :
    ∃ tasks events, (∀ r, ufuncReduce st ⟨worldsize, r⟩ i operation = some (tasks r)) ∧
      Performs I st worldsize tasks events (runWhole I i) := by
  by_cases hndim : i.operand1.ndim = 1
  · obtain ⟨d, e, hv⟩ := h.vectorial hndim
    exact exists_vector st hws hv hop hC
  · obtain ⟨tasks, events, hexec, hperf, -⟩ := exists_passes hI st hws h hndim hop hC
    exact ⟨tasks, events, hexec, hperf⟩

/-- Whatever the order of steps, `ufunc_reduce` on all processes ends, no message is left, and the local
arrays are those of the sequential reduction. Every output element is set by one chunk of a first row
before others are combined with it, and a vector has no more results than there are processes. -/
theorem ufuncReduce_refines {V : Type} (I : Interp V) (hI : Copies I) (st : Stores) (worldsize : ℕ)
    (hws : 1 ≤ worldsize) (i : BhInstruction) (operation : BhOpcode)
    (hop : reduceOperation i.opcode = some operation) (b c : BhBase) (h : Reducible i b c)
    (hC : Combines I i.opcode operation b.type) (mems : ℕ → Mem V) (m : Mem V)
    (hm : ∀ b, gathered st worldsize mems b = contentsOf m b) :
    ∃ tasks : ℕ → List Task, (∀ r, ufuncReduce st ⟨worldsize, r⟩ i operation = some (tasks r)) ∧
      (∃ k, ∀ l n, Runs l (cluster I worldsize tasks mems) n →
        l ≤ k ∧ (∀ r, ∀ x ∈ (n.state r).receipts, x.Matched) ∧
        ((∀ r, n.step r = none) → (∀ r, n.prog r = []) ∧ (∀ r r', n.chan r r' = []) ∧
          ∀ b, gathered st worldsize (fun r => (n.state r).mem) b = contentsOf (runWhole I i m) b)) ∧
      (i.operand1.ndim ≠ 1 → SetOnce st worldsize i operation tasks) ∧
      (i.operand1.ndim = 1 → ∀ r groups, mappingChunks st ⟨worldsize, r⟩ (reduceOperands i) = some groups →
        (vectorPasses st ⟨worldsize, r⟩ i groups).2 ≤ worldsize) := by
  by_cases hndim : i.operand1.ndim = 1
  · obtain ⟨d, e, hv⟩ := h.vectorial hndim
    obtain ⟨tasks, events, hexec, hperf⟩ := exists_vector (I := I) st hws hv hop hC
    refine ⟨tasks, hexec, hperf.ends hws hm, fun hne => absurd hndim hne, fun _ r groups hgroups => ?_⟩
    obtain ⟨boxes, hbox, hne, hcount, _, hmap⟩ := exists_chunks hws hv
    obtain rfl := Option.some.inj ((hmap st r).symm.trans hgroups)
    rw [vectorPasses_eq hv hbox hne]
    dsimp only
    split_ifs
    · exact hcount
    · exact Nat.zero_le _
  · obtain ⟨tasks, events, hexec, hperf, hset⟩ := exists_passes hI st hws h hndim hop hC
    exact ⟨tasks, hexec, hperf.ends hws hm, fun _ => hset, fun hone => absurd hone hndim⟩

/-- The rows of a matrix are added up, on three processes. -/
def addRows : BhInstruction :=
  ⟨.addReduce, ⟨some ⟨0, .int64, 5⟩, 1, [⟨3, 1⟩]⟩, ⟨some ⟨1, .int64, 12⟩, 0, [⟨3, 4⟩, ⟨3, 1⟩]⟩, noView, .int .int64 0⟩

theorem reducible_addRows : Reducible addRows ⟨0, .int64, 5⟩ ⟨1, .int64, 12⟩ where
  output := rfl
  input := rfl
  type := rfl
  axis := by decide
  shape := by decide
  positive := by decide
  intp := by decide
  stride := by decide
  outStride := fun _ => by decide
  injective := by decide
  apart := by decide
  outInBase := ⟨_, rfl, by decide⟩
  inBase := ⟨_, rfl, by decide⟩

theorem combines_add : Combines intInterp .addReduce .add .int64 where
  assoc := ⟨fun x y z => Int.add_assoc x y z⟩
  comm := ⟨fun x y => Int.add_comm x y⟩
  ewise _ _ := rfl

theorem ufuncReduce_addRows : ∃ tasks : ℕ → List Task,
    (∀ r, ufuncReduce plainStores ⟨3, r⟩ addRows .add = some (tasks r)) ∧
      ∀ l n, Runs l (cluster intInterp 3 tasks fun _ _ => 1) n → (∀ r, n.step r = none) →
        gathered plainStores 3 (fun r => (n.state r).mem) ⟨0, .int64, 5⟩ = [1, 3, 3, 3, 1] := by
  obtain ⟨tasks, hexec, ⟨k, hruns⟩, _⟩ := ufuncReduce_refines intInterp (fun _ _ => rfl) plainStores 3 (by decide)
    addRows .add rfl ⟨0, .int64, 5⟩ ⟨1, .int64, 12⟩ reducible_addRows combines_add (fun _ _ => 1) (fun _ => 1)
    ((scattered_iff (by decide)).mp fun _ _ _ _ _ => rfl)
  refine ⟨tasks, hexec, fun l n hn hstuck => ?_⟩
  rw [((hruns l n hn).2.2 hstuck).2.2]
  decide

/-! ## An output that runs backwards -/

/-- The rows of a matrix on the first of two processes are added up into a vector that runs backwards
over both. -/
def addBackwards : BhInstruction :=
  ⟨.addReduce, ⟨some ⟨0, .int64, 2⟩, 1, [⟨2, -1⟩]⟩, ⟨some ⟨1, .int64, 8⟩, 0, [⟨2, 2⟩, ⟨2, 1⟩]⟩, noView, .int .int64 0⟩

def backwardsTasks (r : ℕ) : List Task := (ufuncReduce plainStores ⟨2, r⟩ addBackwards .add).getD []

/-- Nothing but the output's stride is out of order, and the first process never gets its element. -/
theorem not_reduces_addBackwards :
    ((addBackwards.operand0.base = some ⟨0, .int64, 2⟩ ∧ addBackwards.operand1.base = some ⟨1, .int64, 8⟩) ∧
      addBackwards.axis < addBackwards.operand1.shape.length ∧
      addBackwards.operand0.shape = reduceShape addBackwards.axis addBackwards.operand1.shape ∧
      (∀ n ∈ addBackwards.operand1.shape, 1 ≤ n ∧ n < 2 ^ 63) ∧ (∀ d ∈ addBackwards.operand1.dims, 0 ≤ d.stride) ∧
      addBackwards.operand0.Injective ∧ ¬ BhView.Overlap addBackwards.operand0 addBackwards.operand1 ∧
      addBackwards.operand0.InBase ∧ addBackwards.operand1.InBase) ∧
    Combines intInterp addBackwards.opcode .add .int64 ∧
    (∀ b, gathered plainStores 2 (fun _ _ => (1 : ℤ)) b = contentsOf (fun _ => 1) b) ∧
    (∀ r, r < 2 → ufuncReduce plainStores ⟨2, r⟩ addBackwards .add = some (backwardsTasks r)) ∧
    ∃ l n, Runs l (cluster intInterp 2 backwardsTasks fun _ _ => 1) n ∧ (∀ r, n.step r = none) ∧
      gathered plainStores 2 (fun r => (n.state r).mem) ⟨0, .int64, 2⟩ ≠
        contentsOf (runWhole intInterp addBackwards fun _ => 1) ⟨0, .int64, 2⟩ := by
  obtain ⟨es, hes⟩ : ∃ es, es = faceEvents intInterp plainStores 2 addBackwards ⟨0, .int64, 2⟩ ⟨1, .int64, 8⟩ initInst
    ([0, 0], [2, 2]) := ⟨_, rfl⟩
  have hstart : cluster intInterp 2 backwardsTasks (fun _ _ => 1) = start es fun _ => ⟨fun _ => 1, []⟩ := by
    refine Net.ext (funext fun r => ?_) rfl rfl
    rw [hes]
    match r with
    | 0 => rfl
    | 1 => rfl
    | r + 2 => rfl
  obtain ⟨k, hk⟩ := runs_start (show ∀ e ∈ es, e.Proper from hes ▸ proper_faceEvents) fun _ => (⟨fun _ => 1, []⟩ : Node ℤ)
  refine ⟨⟨⟨rfl, rfl⟩, by decide, by decide, by decide, by decide, by decide, by decide, ⟨_, rfl, by decide⟩,
    ⟨_, rfl, by decide⟩⟩, combines_add, (scattered_iff (by decide)).mp fun _ _ _ _ _ => rfl, by decide +kernel,
    k, _, hstart ▸ hk, step_start_nil _, ?_⟩
  rw [hes]
  decide +kernel

end Bohrium.Cluster
