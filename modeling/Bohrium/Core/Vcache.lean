import Bohrium.Core.MemSignal
import Bohrium.Core.Opcode
import Mathlib.Algebra.BigOperators.Fin
import Mathlib.Algebra.BigOperators.Group.Finset.Piecewise

/-! # The victim cache

Freed buffers are kept in slots and handed to the next base of the same size. An occupied slot has a
positive size; the pointer of an empty one is stale. `bh_vcache_insert` does not subtract what it evicts
from the total, and `bh_vcache_clear` gives the buffers back without emptying their slots. -/
namespace Bohrium
open Rounds
set_option autoImplicit false

namespace Vcache

abbrev Ptr := ℕ

/-- The memory of the process: the buffers that `bh_memory_malloc` gave and the size of each, and the
calls of `bh_memory_free` that did not give back such a buffer with its size. -/
structure Heap where
  live : Ptr → Option ℤ
  misfrees : List (Option Ptr × ℤ)

/-- `bh_memory_free`, also of what is not allocated. -/
def Heap.free (h : Heap) (data : Option Ptr) (bytes : ℤ) : Heap where
  live p := if data = some p then none else h.live p
  misfrees := if data.bind h.live = some bytes then h.misfrees else (data, bytes) :: h.misfrees

/-- `bh_memory_malloc`, where the system answers with an address or with an error. It does not answer with
an address that is allocated. -/
def Heap.malloc (h : Heap) (answer : Option Ptr) (bytes : ℤ) : Option (Option Ptr × Heap) :=
  match answer with
  | none => some (none, h)
  | some p => if h.live p = none then some (some p, { h with live := Function.update h.live p (some bytes) }) else none

structure Base where
  data : Option Ptr
  nelem : ℤ
  type : BhType

/-- `bh_base_size`, in a `bh_index`. -/
def Base.size (b : Base) : ℤ := Int.bmod (b.nelem * bhTypeSize b.type) (2 ^ 64)

/-- `bh_vcache[i]` and `bh_vcache_bytes[i]`. -/
structure Slot where
  data : Option Ptr
  bytes : ℤ

def Slot.Occupied (s : Slot) : Prop := 0 < s.bytes

instance (s : Slot) : Decidable s.Occupied := inferInstanceAs (Decidable (0 < s.bytes))

/-- The cache of size `n`, the bases of the program and the memory. The counters of hits and misses are
never read. -/
structure State (n : ℕ) where
  slots : Fin n → Slot
  total : ℤ
  cur : ℕ
  cur_lt : 0 < n → cur < n
  bases : ℕ → Base
  heap : Heap

variable {n : ℕ}

/-- `bh_vcache_init`. -/
def init (bases : ℕ → Base) (heap : Heap) : State n := ⟨fun _ => ⟨none, 0⟩, 0, 0, id, bases, heap⟩

def clear (s : State n) : State n :=
  { s with heap := (List.finRange n).foldl (fun h i =>
      if 0 < (s.slots i).bytes then h.free (s.slots i).data (s.slots i).bytes else h) s.heap }

/-- The pointer of the first slot with that size, which is then empty. -/
def find (s : State n) (bytes : ℤ) : Option Ptr × State n :=
  match (List.finRange n).find? fun i => (s.slots i).bytes = bytes with
  | some i => ((s.slots i).data,
      { s with slots := Function.update s.slots i { s.slots i with bytes := 0 }, total := s.total - bytes })
  | none => (none, s)

def insert (s : State n) (hn : 0 < n) (data : Option Ptr) (size : ℤ) : State n :=
  let i : Fin n := ⟨s.cur, s.cur_lt hn⟩
  { s with
    heap := if 0 < (s.slots i).bytes then s.heap.free (s.slots i).data (s.slots i).bytes else s.heap
    slots := Function.update s.slots i ⟨data, size⟩
    cur := (s.cur + 1) % n
    cur_lt := fun hn => Nat.mod_lt _ hn
    total := s.total + size }

def setData (s : State n) (b : ℕ) (data : Option Ptr) : State n :=
  { s with bases := Function.update s.bases b { s.bases b with data := data } }

@[simp] theorem setData_self (s : State n) (b : ℕ) (data : Option Ptr) :
    (setData s b data).bases b = { s.bases b with data := data } := Function.update_self ..

theorem setData_of_ne (s : State n) {b c : ℕ} (data : Option Ptr) (hcb : c ≠ b) :
    (setData s b data).bases c = s.bases c := Function.update_of_ne hcb ..

def freeBase (s : State n) (b : ℕ) : State n × BhError :=
  match (s.bases b).data with
  | none => (s, .success)
  | some p =>
    let bytes := (s.bases b).size
    let s' := if hn : 0 < n then insert s hn (some p) bytes else { s with heap := s.heap.free (some p) bytes }
    (setData s' b none, .success)

def mallocBase (s : State n) (b : ℕ) (answer : Option Ptr) : Option (State n × BhError) :=
  match (s.bases b).data with
  | some _ => some (s, .success)
  | none =>
    let bytes := (s.bases b).size
    if bytes ≤ 0 then some (s, .error)
    else
      let (data, s) := if 0 < n then find s bytes else (none, s)
      match data with
      | some p => some (setData s b (some p), .success)
      | none => (s.heap.malloc answer bytes).map fun (data, heap) =>
        (setData { s with heap := heap } b data, if data = none then .outOfMemory else .success)

inductive Call
  /-- With the answer of the system if it is asked. -/
  | malloc (b : ℕ) (answer : Option Ptr)
  | free (b : ℕ)
  | clear
  /-- The program describes another array in a base without data. -/
  | describe (b : ℕ) (nelem : ℤ) (type : BhType)

/-- `none` where the system cannot answer so, or the base to describe holds data. -/
def call (s : State n) : Call → Option (State n)
  | .malloc b answer => (mallocBase s b answer).map Prod.fst
  | .free b => some (freeBase s b).1
  | .clear => some (clear s)
  | .describe b nelem type =>
    if (s.bases b).data = none then some { s with bases := Function.update s.bases b ⟨none, nelem, type⟩ } else none

/-! ## What the cache is for -/

/-- The counter is the sum of the slots, every buffer has one owner, no call of `bh_memory_free` went
wrong, and the bases have buffers of their sizes. -/
structure Sound (s : State n) : Prop where
  total : s.total = ∑ i, (s.slots i).bytes
  slots : ∀ i j, i ≠ j → (s.slots i).Occupied → (s.slots j).Occupied → (s.slots i).data ≠ (s.slots j).data
  bases : ∀ i b, (s.slots i).Occupied → (s.bases b).data.isSome → (s.slots i).data ≠ (s.bases b).data
  freed : s.heap.misfrees = []
  handed : ∀ b p, (s.bases b).data = some p → s.heap.live p = some (s.bases b).size

/-- A slot that a `bh_vcache_clear` has left behind: its buffer is not allocated any more. -/
def Stale (s : State n) (i : Fin n) : Prop := (s.slots i).Occupied ∧ (s.slots i).data.bind s.heap.live = none

/-- A free finds an empty slot. What a clear has left behind is not cleared again, not found by a malloc,
and its memory is not allocated again. -/
def Avoids (s : State n) : Call → Prop
  | .malloc b answer => (s.bases b).data = none → 0 < (s.bases b).size →
    match (List.finRange n).find? fun i => (s.slots i).bytes = (s.bases b).size with
    | some i => ¬ Stale s i
    | none => ∀ p, answer = some p → s.heap.live p = none → ∀ i, (s.slots i).Occupied → (s.slots i).data ≠ some p
  | .free b => (s.bases b).data.isSome → ∀ i : Fin n, i.val = s.cur → ¬ (s.slots i).Occupied
  | .clear => ∀ i, ¬ Stale s i
  | .describe _ _ _ => True

/-- The invariant of the runs that avoid this. -/
structure Owned (s : State n) : Prop extends Sound s where
  data : ∀ i, (s.slots i).Occupied → (s.slots i).data.isSome
  bytes : ∀ i, 0 ≤ (s.slots i).bytes
  live : ∀ i p, (s.slots i).Occupied → (s.slots i).data = some p →
    s.heap.live p = some (s.slots i).bytes ∨ s.heap.live p = none
  distinct : ∀ b c, b ≠ c → (s.bases b).data.isSome → (s.bases b).data ≠ (s.bases c).data
  positive : ∀ b, (s.bases b).data.isSome → 0 < (s.bases b).size

variable {s t : State n} {c : Call}

/-! ## Memory -/

theorem Heap.free_live_of_ne (h : Heap) {data : Option Ptr} {bytes : ℤ} {p : Ptr} (hp : data ≠ some p) :
    (h.free data bytes).live p = h.live p := if_neg hp

theorem Heap.free_misfrees (h : Heap) {data : Option Ptr} {bytes : ℤ} :
    (h.free data bytes).misfrees = [] ↔ h.misfrees = [] ∧ data.bind h.live = some bytes := by
  unfold Heap.free
  dsimp only
  split_ifs with hlive
  · simp [hlive]
  · simp [hlive]

/-- The slots `is` given back one after the other. -/
def freeAll (slots : Fin n → Slot) (h : Heap) (is : List (Fin n)) : Heap :=
  is.foldl (fun h i => if 0 < (slots i).bytes then h.free (slots i).data (slots i).bytes else h) h

theorem freeAll_live (slots : Fin n → Slot) (is : List (Fin n)) (h : Heap) (p : Ptr) :
    (freeAll slots h is).live p = if ∃ i ∈ is, (slots i).Occupied ∧ (slots i).data = some p then none else h.live p := by
  induction is generalizing h with
  | nil => simp [freeAll]
  | cons i is ih =>
    have hstep : freeAll slots h (i :: is) =
      freeAll slots (if 0 < (slots i).bytes then h.free (slots i).data (slots i).bytes else h) is := rfl
    rw [hstep, ih]
    by_cases hrest : ∃ j ∈ is, (slots j).Occupied ∧ (slots j).data = some p
    · rw [if_pos hrest, if_pos]
      obtain ⟨j, hj, hp⟩ := hrest
      exact ⟨j, List.mem_cons_of_mem i hj, hp⟩
    · rw [if_neg hrest]
      by_cases hi : (slots i).Occupied ∧ (slots i).data = some p
      · have hfirst : ∃ j ∈ i :: is, (slots j).Occupied ∧ (slots j).data = some p := ⟨i, List.mem_cons_self, hi⟩
        have hbytes : 0 < (slots i).bytes := hi.1
        rw [if_pos hfirst, if_pos hbytes]
        exact if_pos hi.2
      · have hnone : ¬ ∃ j ∈ i :: is, (slots j).Occupied ∧ (slots j).data = some p := by
          rintro ⟨j, hj, hp⟩
          cases hj with
          | head => exact hi hp
          | tail _ hj => exact hrest ⟨j, hj, hp⟩
        rw [if_neg hnone]
        split_ifs with hbytes
        · exact h.free_live_of_ne fun hp => hi ⟨hbytes, hp⟩
        · rfl

/-- Giving back slots with different pointers goes well exactly if each buffer is allocated with its size. -/
theorem freeAll_misfrees {slots : Fin n → Slot} {is : List (Fin n)} (hnd : is.Nodup)
    (hslots : ∀ i j, i ≠ j → (slots i).Occupied → (slots j).Occupied → (slots i).data ≠ (slots j).data) (h : Heap) :
    (freeAll slots h is).misfrees = [] ↔
      h.misfrees = [] ∧ ∀ i ∈ is, (slots i).Occupied → (slots i).data.bind h.live = some (slots i).bytes := by
  induction is generalizing h with
  | nil => simp [freeAll]
  | cons i is ih =>
    obtain ⟨hi, hnd⟩ := List.nodup_cons.mp hnd
    have hstep : freeAll slots h (i :: is) =
      freeAll slots (if 0 < (slots i).bytes then h.free (slots i).data (slots i).bytes else h) is := rfl
    rw [hstep, ih hnd, List.forall_mem_cons]
    by_cases hbytes : 0 < (slots i).bytes
    · rw [if_pos hbytes, Heap.free_misfrees, and_assoc]
      refine and_congr_right fun _ => and_congr (imp_iff_right hbytes).symm ?_
      refine forall₂_congr fun j hj => forall_congr' fun hocc => ?_
      have hne : (slots i).data ≠ (slots j).data := by
        refine hslots i j ?_ hbytes hocc
        rintro rfl
        exact hi hj
      cases hdata : (slots j).data with
      | none => rfl
      | some p =>
        rw [Option.bind_some, Option.bind_some, Heap.free_live_of_ne h (hdata ▸ hne)]
    · rw [if_neg hbytes]
      refine and_congr_right fun _ => ?_
      rw [iff_and_self]
      intro _ hocc
      exact absurd hocc hbytes

theorem sum_update (slots : Fin n → Slot) (i : Fin n) (v : Slot) :
    ∑ j, (Function.update slots i v j).bytes = ∑ j, (slots j).bytes - (slots i).bytes + v.bytes := by
  have h1 := Finset.sum_update_of_mem (Finset.mem_univ i) (fun j => (slots j).bytes) v.bytes
  have h2 := Finset.sum_update_of_mem (Finset.mem_univ i) (fun j => (slots j).bytes) (slots i).bytes
  have heq : (fun j => (Function.update slots i v j).bytes) = Function.update (fun j => (slots j).bytes) i v.bytes := by
    funext j
    by_cases hj : j = i
    · subst hj
      simp
    · simp [hj]
  rw [Function.update_eq_self] at h2
  rw [heq, h1, h2]
  omega

/-! ## What keeps the owners apart -/

namespace Owned

theorem drop (hs : Owned s) (b : ℕ) {v : Base} (hv : v.data = none) :
    Owned { s with bases := Function.update s.bases b v } := by
  have hbase : ∀ c, (Function.update s.bases b v c).data.isSome → Function.update s.bases b v c = s.bases c := by
    intro c hc
    by_cases hcb : c = b
    · subst hcb
      rw [Function.update_self, hv] at hc
      cases hc
    · exact Function.update_of_ne hcb _ _
  refine { hs with bases := ?_, handed := ?_, distinct := ?_, positive := ?_ }
  · intro i c hi hc
    dsimp only at hc ⊢
    have hbc := hbase c hc
    rw [hbc] at hc ⊢
    exact hs.bases i c hi hc
  · intro c p hp
    dsimp only at hp ⊢
    have hbc := hbase c (by rw [hp]; rfl)
    rw [hbc] at hp ⊢
    exact hs.handed c p hp
  · intro c d hcd hc heq
    dsimp only at hc heq
    have hbd := hbase d (heq ▸ hc)
    have hbc := hbase c hc
    rw [hbc] at hc heq
    rw [hbd] at heq
    exact hs.distinct c d hcd hc heq
  · intro c hc
    dsimp only at hc ⊢
    have hbc := hbase c hc
    rw [hbc] at hc ⊢
    exact hs.positive c hc

/-- A base without data gets a buffer of its size that nobody else has. -/
theorem hand (hs : Owned s) {b : ℕ} {p : Ptr} (hpos : 0 < (s.bases b).size) (hlive : s.heap.live p = some (s.bases b).size)
    (hslots : ∀ i, (s.slots i).Occupied → (s.slots i).data ≠ some p) (hbases : ∀ c, (s.bases c).data ≠ some p) :
    Owned (setData s b (some p)) := by
  refine { hs with bases := ?_, handed := ?_, distinct := ?_, positive := ?_ }
  · intro i c hi hc
    by_cases hcb : c = b
    · subst hcb
      rw [setData_self]
      exact hslots i hi
    · rw [setData_of_ne s _ hcb] at hc ⊢
      exact hs.bases i c hi hc
  · intro c q hq
    by_cases hcb : c = b
    · subst hcb
      rw [setData_self] at hq ⊢
      obtain rfl := Option.some.inj hq
      exact hlive
    · rw [setData_of_ne s _ hcb] at hq ⊢
      exact hs.handed c q hq
  · intro c d hcd hc
    by_cases hcb : c = b
    · subst hcb
      rw [setData_self, setData_of_ne s _ (Ne.symm hcd)]
      exact Ne.symm (hbases d)
    · rw [setData_of_ne s _ hcb] at hc ⊢
      by_cases hdb : d = b
      · subst hdb
        rw [setData_self]
        exact hbases c
      · rw [setData_of_ne s _ hdb]
        exact hs.distinct c d hcd hc
  · intro c hc
    by_cases hcb : c = b
    · subst hcb
      rw [setData_self]
      exact hpos
    · rw [setData_of_ne s _ hcb] at hc ⊢
      exact hs.positive c hc

/-- A slot is emptied. -/
theorem take (hs : Owned s) (i : Fin n) :
    Owned { s with slots := Function.update s.slots i { s.slots i with bytes := 0 }, total := s.total - (s.slots i).bytes } := by
  have hslot : ∀ j, (Function.update s.slots i { s.slots i with bytes := 0 } j).Occupied →
      Function.update s.slots i { s.slots i with bytes := 0 } j = s.slots j := by
    intro j hj
    by_cases hji : j = i
    · subst hji
      rw [Function.update_self] at hj
      exact absurd hj (lt_irrefl 0)
    · exact Function.update_of_ne hji _ _
  refine { hs with total := ?_, slots := ?_, bases := ?_, data := ?_, bytes := ?_, live := ?_ }
  · dsimp only
    rw [sum_update, hs.total, add_zero]
  · intro j k hjk hj hk
    dsimp only at hj hk ⊢
    have hsj := hslot j hj
    have hsk := hslot k hk
    rw [hsj] at hj ⊢
    rw [hsk] at hk ⊢
    exact hs.slots j k hjk hj hk
  · intro j b hj
    dsimp only at hj ⊢
    have hsj := hslot j hj
    rw [hsj] at hj ⊢
    exact hs.bases j b hj
  · intro j hj
    dsimp only at hj ⊢
    have hsj := hslot j hj
    rw [hsj] at hj ⊢
    exact hs.data j hj
  · intro j
    dsimp only
    by_cases hji : j = i
    · subst hji
      rw [Function.update_self]
    · rw [Function.update_of_ne hji]
      exact hs.bytes j
  · intro j p hj hp
    dsimp only at hj hp ⊢
    have hsj := hslot j hj
    rw [hsj] at hj hp ⊢
    exact hs.live j p hj hp

/-- An empty slot is filled with a buffer that nobody else has. -/
theorem fill (hs : Owned s) (hn : 0 < n) {p : Ptr} {bytes : ℤ} (hpos : 0 < bytes) (hlive : s.heap.live p = some bytes)
    (hslots : ∀ i, (s.slots i).Occupied → (s.slots i).data ≠ some p) (hbases : ∀ c, (s.bases c).data ≠ some p)
    (hempty : ∀ i : Fin n, i.val = s.cur → ¬ (s.slots i).Occupied) : Owned (insert s hn (some p) bytes) := by
  have hcur : (s.slots ⟨s.cur, s.cur_lt hn⟩).bytes = 0 := le_antisymm (not_lt.mp (hempty _ rfl)) (hs.bytes _)
  have hheap : (insert s hn (some p) bytes).heap = s.heap := if_neg (hempty _ rfl)
  have hself : (insert s hn (some p) bytes).slots ⟨s.cur, s.cur_lt hn⟩ = ⟨some p, bytes⟩ := Function.update_self ..
  have hne : ∀ i, i ≠ ⟨s.cur, s.cur_lt hn⟩ → (insert s hn (some p) bytes).slots i = s.slots i := fun i hi =>
    Function.update_of_ne hi _ _
  refine ⟨⟨?_, ?_, ?_, hheap ▸ hs.freed, hheap ▸ hs.handed⟩, ?_, ?_, ?_, hs.distinct, hs.positive⟩
  · have hsum := sum_update s.slots ⟨s.cur, s.cur_lt hn⟩ ⟨some p, bytes⟩
    have htotal := hs.total
    show s.total + bytes = ∑ i, (Function.update s.slots ⟨s.cur, s.cur_lt hn⟩ ⟨some p, bytes⟩ i).bytes
    rw [hsum, hcur, htotal, sub_zero]
  · intro i j hij hi hj
    by_cases hic : i = ⟨s.cur, s.cur_lt hn⟩
    · subst hic
      rw [hne j (Ne.symm hij)] at hj ⊢
      rw [hself]
      exact Ne.symm (hslots j hj)
    · rw [hne i hic] at hi ⊢
      by_cases hjc : j = ⟨s.cur, s.cur_lt hn⟩
      · subst hjc
        rw [hself]
        exact hslots i hi
      · rw [hne j hjc] at hj ⊢
        exact hs.slots i j hij hi hj
  · intro i c hi hc
    by_cases hic : i = ⟨s.cur, s.cur_lt hn⟩
    · subst hic
      rw [hself]
      exact Ne.symm (hbases c)
    · rw [hne i hic] at hi ⊢
      exact hs.bases i c hi hc
  · intro i hi
    by_cases hic : i = ⟨s.cur, s.cur_lt hn⟩
    · subst hic
      rw [hself]
      rfl
    · rw [hne i hic] at hi ⊢
      exact hs.data i hi
  · intro i
    by_cases hic : i = ⟨s.cur, s.cur_lt hn⟩
    · subst hic
      rw [hself]
      exact le_of_lt hpos
    · rw [hne i hic]
      exact hs.bytes i
  · intro i q hi hq
    rw [hheap]
    by_cases hic : i = ⟨s.cur, s.cur_lt hn⟩
    · subst hic
      rw [hself] at hq ⊢
      obtain rfl := Option.some.inj hq
      exact Or.inl hlive
    · rw [hne i hic] at hi hq ⊢
      exact hs.live i q hi hq

/-- Memory that nobody has is allocated. -/
theorem grow (hs : Owned s) {p : Ptr} {bytes : ℤ} (hfree : s.heap.live p = none)
    (hslots : ∀ i, (s.slots i).Occupied → (s.slots i).data ≠ some p) :
    Owned { s with heap := { s.heap with live := Function.update s.heap.live p (some bytes) } } := by
  refine { hs with handed := ?_, live := ?_ }
  · intro b q hq
    have hlive := hs.handed b q hq
    have hne : q ≠ p := by
      rintro rfl
      rw [hfree] at hlive
      cases hlive
    exact (Function.update_of_ne hne _ _).trans hlive
  · intro i q hi hq
    have hne : q ≠ p := by
      rintro rfl
      exact hslots i hi hq
    dsimp only
    rw [Function.update_of_ne hne]
    exact hs.live i q hi hq

/-- What an occupied slot holds is allocated with its size, or left behind by a clear. -/
theorem live_or_stale (hs : Owned s) {i : Fin n} (hi : (s.slots i).Occupied) :
    (s.slots i).data.bind s.heap.live = some (s.slots i).bytes ∨ Stale s i := by
  obtain ⟨p, hp⟩ := Option.isSome_iff_exists.mp (hs.data i hi)
  unfold Stale
  rw [hp, Option.bind_some]
  exact (hs.live i p hi hp).imp_right fun hnone => ⟨hi, hnone⟩

theorem clear_misfrees (hs : Owned s) : (clear s).heap.misfrees = [] ↔ ∀ i, ¬ Stale s i := by
  rw [show (clear s).heap = freeAll s.slots s.heap (List.finRange n) from rfl,
    freeAll_misfrees (List.nodup_finRange n) hs.slots, and_iff_right hs.freed]
  constructor
  · rintro h i ⟨hi, hnone⟩
    rw [h i (List.mem_finRange i) hi] at hnone
    cases hnone
  · intro h i _ hi
    exact (hs.live_or_stale hi).resolve_right (h i)

theorem clear (hs : Owned s) (hstale : ∀ i, ¬ Stale s i) : Owned (clear s) := by
  have hlive : ∀ p, (Vcache.clear s).heap.live p =
      if ∃ i ∈ List.finRange n, (s.slots i).Occupied ∧ (s.slots i).data = some p then none else s.heap.live p :=
    freeAll_live s.slots (List.finRange n) s.heap
  refine { hs with freed := hs.clear_misfrees.mpr hstale, handed := ?_, live := ?_ }
  · intro b p hp
    rw [hlive, if_neg]
    · exact hs.handed b p hp
    · rintro ⟨i, _, hi, hdata⟩
      exact hs.bases i b hi (Option.isSome_iff_exists.mpr ⟨p, hp⟩) (hdata.trans hp.symm)
  · intro i p hi hp
    rw [hlive, if_pos ⟨i, List.mem_finRange i, hi, hp⟩]
    exact Or.inr rfl

end Owned

/-! ## What the calls do -/

theorem find_disabled (bytes : ℤ) : (if 0 < n then find s bytes else (none, s)) = find s bytes := by
  split_ifs with hn
  · rfl
  · obtain rfl : n = 0 := Nat.eq_zero_of_not_pos hn
    rfl

theorem find_of_some {bytes : ℤ} {i : Fin n} (h : ((List.finRange n).find? fun i => (s.slots i).bytes = bytes) = some i) :
    (s.slots i).bytes = bytes ∧ find s bytes = ((s.slots i).data,
      { s with slots := Function.update s.slots i { s.slots i with bytes := 0 }, total := s.total - (s.slots i).bytes }) := by
  have hbytes : (s.slots i).bytes = bytes := of_decide_eq_true (List.find?_some (p := fun i => (s.slots i).bytes = bytes) h)
  refine ⟨hbytes, ?_⟩
  unfold find
  rw [h, hbytes]

theorem find_of_none {bytes : ℤ} (h : ((List.finRange n).find? fun i => (s.slots i).bytes = bytes) = none) :
    find s bytes = (none, s) := by
  unfold find
  rw [h]

/-- A base that holds data, or whose size is not positive, stays as it is. -/
theorem call_malloc_idle {b : ℕ} {answer : Option Ptr} (h : (s.bases b).data.isSome ∨ (s.bases b).size ≤ 0) :
    call s (.malloc b answer) = some s := by
  simp only [call, mallocBase]
  cases hdata : (s.bases b).data with
  | some p => rfl
  | none =>
    rw [hdata] at h
    rw [if_pos (h.resolve_left (by simp))]
    rfl

theorem mallocBase_asked {b : ℕ} (answer : Option Ptr) (hdata : (s.bases b).data = none) (hpos : 0 < (s.bases b).size) :
    mallocBase s b answer = match find s (s.bases b).size with
      | (some p, t) => some (setData t b (some p), .success)
      | (none, t) => (t.heap.malloc answer (s.bases b).size).map fun (data, heap) =>
        (setData { t with heap := heap } b data, if data = none then .outOfMemory else .success) := by
  unfold mallocBase
  rw [hdata]
  dsimp only
  rw [if_neg (not_le.mpr hpos), find_disabled]
  cases find s (s.bases b).size with
  | mk data t => cases data <;> rfl

/-- A hit: the base gets the buffer of the slot. -/
theorem Owned.call_malloc_hit (hs : Owned s) {b : ℕ} (answer : Option Ptr) {i : Fin n} (hdata : (s.bases b).data = none)
    (hpos : 0 < (s.bases b).size) (hfind : ((List.finRange n).find? fun i => (s.slots i).bytes = (s.bases b).size) = some i) :
    ∃ p, (s.slots i).data = some p ∧ (s.slots i).bytes = (s.bases b).size ∧ call s (.malloc b answer) = some (setData
      { s with slots := Function.update s.slots i { s.slots i with bytes := 0 }, total := s.total - (s.slots i).bytes }
      b (some p)) := by
  obtain ⟨hbytes, heq⟩ := find_of_some hfind
  have hi : (s.slots i).Occupied := by
    unfold Slot.Occupied
    omega
  obtain ⟨p, hp⟩ := Option.isSome_iff_exists.mp (hs.data i hi)
  refine ⟨p, hp, hbytes, ?_⟩
  rw [call, mallocBase_asked answer hdata hpos, heq, hp]
  rfl

/-- A miss: the base gets what the system answers. -/
theorem call_malloc_miss {b : ℕ} (answer : Option Ptr) (hdata : (s.bases b).data = none) (hpos : 0 < (s.bases b).size)
    (hfind : ((List.finRange n).find? fun i => (s.slots i).bytes = (s.bases b).size) = none) :
    call s (.malloc b answer) = (s.heap.malloc answer (s.bases b).size).map fun r =>
      setData { s with heap := r.2 } b r.1 := by
  rw [call, mallocBase_asked answer hdata hpos, find_of_none hfind]
  exact Option.map_map ..

theorem call_free_idle {b : ℕ} (hdata : (s.bases b).data = none) : call s (.free b) = some s := by
  simp only [call, freeBase, hdata]

theorem call_free (hn : 0 < n) {b : ℕ} {p : Ptr} (hdata : (s.bases b).data = some p) :
    call s (.free b) = some (insert (setData s b none) hn (some p) (s.bases b).size) := by
  simp only [call, freeBase, hdata, dif_pos hn]
  rfl

namespace Owned

theorem of_malloc (hs : Owned s) {b : ℕ} {answer : Option Ptr} (hc : Avoids s (.malloc b answer))
    (ht : call s (.malloc b answer) = some t) : Owned t := by
  by_cases hidle : (s.bases b).data.isSome ∨ (s.bases b).size ≤ 0
  · rw [call_malloc_idle hidle] at ht
    obtain rfl := Option.some.inj ht
    exact hs
  · obtain ⟨hdata, hpos⟩ := not_or.mp hidle
    rw [Bool.not_eq_true, Option.isSome_eq_false_iff, Option.isNone_iff_eq_none] at hdata
    rw [not_le] at hpos
    have hc := hc hdata hpos
    cases hfind : (List.finRange n).find? fun i => (s.slots i).bytes = (s.bases b).size with
    | some i =>
      rw [hfind] at hc
      obtain ⟨p, hp, hbytes, hcall⟩ := hs.call_malloc_hit answer hdata hpos hfind
      obtain rfl := Option.some.inj (hcall.symm.trans ht)
      have hi : (s.slots i).Occupied := hpos.trans_eq hbytes.symm
      have hlive := (hs.live_or_stale hi).resolve_right hc
      rw [hp, hbytes] at hlive
      refine (hs.take i).hand hpos hlive ?_ ?_
      · intro j hj
        by_cases hji : j = i
        · subst hji
          dsimp only at hj
          rw [Function.update_self] at hj
          exact absurd hj (lt_irrefl 0)
        · dsimp only at hj ⊢
          rw [Function.update_of_ne hji] at hj ⊢
          exact hp ▸ hs.slots j i hji hj hi
      · intro c hcp
        exact hs.bases i c hi (Option.isSome_iff_exists.mpr ⟨p, hcp⟩) (hp.trans hcp.symm)
    | none =>
      rw [hfind] at hc
      rw [call_malloc_miss answer hdata hpos hfind] at ht
      cases answer with
      | none =>
        obtain rfl := Option.some.inj ht
        exact hs.drop b rfl
      | some p =>
        unfold Heap.malloc at ht
        dsimp only at ht
        split_ifs at ht with hfree
        · obtain rfl := Option.some.inj ht
          have hslots := hc p rfl hfree
          refine (hs.grow hfree hslots).hand hpos (Function.update_self ..) hslots ?_
          intro c hcp
          rw [hs.handed c p hcp] at hfree
          cases hfree
        · cases ht

theorem of_free (hs : Owned s) {b : ℕ} (hc : Avoids s (.free b)) (ht : call s (.free b) = some t) : Owned t := by
  cases hdata : (s.bases b).data with
  | none =>
    rw [call_free_idle hdata] at ht
    obtain rfl := Option.some.inj ht
    exact hs
  | some p =>
    have hsome : (s.bases b).data.isSome := Option.isSome_iff_exists.mpr ⟨p, hdata⟩
    have hlive := hs.handed b p hdata
    have hdrop : Owned (setData s b none) := hs.drop b rfl
    have hbases : ∀ c, ((setData s b none).bases c).data ≠ some p := by
      intro c hcp
      by_cases hcb : c = b
      · subst hcb
        rw [setData_self] at hcp
        cases hcp
      · rw [show (setData s b none).bases c = s.bases c from Function.update_of_ne hcb ..] at hcp
        exact hs.distinct b c (Ne.symm hcb) hsome (hdata.trans hcp.symm)
    rcases Nat.eq_zero_or_pos n with rfl | hn
    · -- without a cache the buffer goes back at once
      obtain rfl : setData { s with heap := s.heap.free (some p) (s.bases b).size } b none = t := by
        simpa [call, freeBase, hdata] using ht
      refine { hdrop with freed := s.heap.free_misfrees.mpr ⟨hs.freed, hlive⟩, handed := ?_, live := fun i => i.elim0 }
      intro c q hq
      refine (s.heap.free_live_of_ne ?_).trans (hdrop.handed c q hq)
      rintro ⟨⟩
      exact hbases c hq
    · rw [call_free hn hdata] at ht
      obtain rfl := Option.some.inj ht
      refine hdrop.fill hn (hs.positive b hsome) hlive ?_ hbases (hc hsome)
      intro i hi
      exact hdata ▸ hs.bases i b hi hsome

theorem of_avoids (hs : Owned s) (hc : Avoids s c) (ht : call s c = some t) : Owned t := by
  cases c with
  | malloc b answer => exact hs.of_malloc hc ht
  | free b => exact hs.of_free hc ht
  | clear =>
    obtain rfl := Option.some.inj ht
    exact hs.clear hc
  | describe b nelem type =>
    simp only [call] at ht
    split_ifs at ht
    obtain rfl := Option.some.inj ht
    exact hs.drop b rfl

/-- A call that ends well has avoided what a clear left behind, and evictions. -/
theorem avoids (hs : Owned s) (ht : ∀ t, call s c = some t → Sound t) : Avoids s c := by
  cases c with
  | malloc b answer =>
    intro hdata hpos
    cases hfind : (List.finRange n).find? fun i => (s.slots i).bytes = (s.bases b).size with
    | some i =>
      rintro ⟨_, hstale⟩
      obtain ⟨p, hp, _, hcall⟩ := hs.call_malloc_hit answer hdata hpos hfind
      have hlive := (ht _ hcall).handed b p (by rw [setData_self])
      rw [hp] at hstale
      cases hstale.symm.trans hlive
    | none =>
      rintro p rfl hfree i hi hp
      have hcall := call_malloc_miss (some p) hdata hpos hfind
      unfold Heap.malloc at hcall
      dsimp only at hcall
      rw [if_pos hfree] at hcall
      have hapart := (ht _ hcall).bases i b hi
      rw [setData_self] at hapart
      exact hapart rfl hp
  | free b =>
    rintro hsome i hi hocc
    obtain ⟨p, hdata⟩ := Option.isSome_iff_exists.mp hsome
    have hn : 0 < n := Fin.pos i
    obtain rfl : i = ⟨s.cur, s.cur_lt hn⟩ := Fin.ext hi
    have htotal := (ht _ (call_free hn hdata)).total
    rw [show (insert (setData s b none) hn (some p) (s.bases b).size).total = s.total + (s.bases b).size from rfl,
      show (insert (setData s b none) hn (some p) (s.bases b).size).slots =
        Function.update s.slots ⟨s.cur, s.cur_lt hn⟩ ⟨some p, (s.bases b).size⟩ from rfl, sum_update, hs.total] at htotal
    unfold Slot.Occupied at hocc
    dsimp only at htotal
    omega
  | clear => exact hs.clear_misfrees.mp (ht _ rfl).freed
  | describe b nelem type => exact trivial

end Owned

/-! ## Runs -/

/-- Where a run starts: the buffers that bases already have are their own. -/
structure Program where
  bases : ℕ → Base
  heap : Heap
  freed : heap.misfrees = []
  handed : ∀ b p, (bases b).data = some p → heap.live p = some (bases b).size
  distinct : ∀ b c, b ≠ c → (bases b).data.isSome → (bases b).data ≠ (bases c).data
  positive : ∀ b, (bases b).data.isSome → 0 < (bases b).size

theorem owned_init (n : ℕ) (prog : Program) : Owned (init prog.bases prog.heap : State n) where
  total := Finset.sum_const_zero.symm
  slots _ _ _ hi _ := absurd hi (lt_irrefl 0)
  bases _ _ hi := absurd hi (lt_irrefl 0)
  freed := prog.freed
  handed := prog.handed
  data _ hi := absurd hi (lt_irrefl 0)
  bytes _ := le_refl 0
  live _ _ hi := absurd hi (lt_irrefl 0)
  distinct := prog.distinct
  positive := prog.positive

/-- The accounting and the owners are right all along exactly if nothing is evicted and what a clear left
behind is not touched again. -/
theorem vcache_sound_iff (n : ℕ) (prog : Program) (calls : List Call) :
    Throughout call Sound (fun _ _ => True) (init prog.bases prog.heap : State n) calls ↔
      Throughout call (fun _ => True) Avoids (init prog.bases prog.heap : State n) calls := by
  refine throughout_iff (I := Owned) ?_ ?_ ?_ (owned_init n prog)
  · intro s hs
    exact iff_true_intro hs.toSound
  · intro s c hs hc
    exact ⟨trivial, fun t ht => hs.of_avoids hc ht⟩
  · intro s c hs _ ht
    exact hs.avoids ht

/-- Arrays of three and of five integers, without data. -/
def twoArrays : Program where
  bases b := ⟨none, if b = 0 then 3 else 5, .int64⟩
  heap := ⟨fun _ => none, []⟩
  freed := rfl
  handed _ _ h := by cases h
  distinct _ _ _ h := by cases h
  positive _ h := by cases h

/-- A cache of one slot counts 64 bytes after the buffer of 24 bytes was evicted by the one of 40 bytes, and
gives a buffer back twice if it is cleared twice. -/
theorem not_sound_twoArrays :
    ¬ Throughout call Sound (fun _ _ => True) (init twoArrays.bases twoArrays.heap : State 1)
      [.malloc 0 (some 100), .malloc 1 (some 200), .free 0, .free 1] ∧
    ¬ Throughout call Sound (fun _ _ => True) (init twoArrays.bases twoArrays.heap : State 1)
      [.malloc 0 (some 100), .free 0, .clear, .clear] := by
  constructor
  · rintro ⟨_, _, h⟩
    obtain ⟨_, _, h⟩ := h _ rfl
    obtain ⟨_, _, h⟩ := h _ rfl
    obtain ⟨_, _, h⟩ := h _ rfl
    have htotal := (h _ rfl).total
    rw [Fin.sum_univ_one] at htotal
    exact absurd htotal (by decide)
  · rintro ⟨_, _, h⟩
    obtain ⟨_, _, h⟩ := h _ rfl
    obtain ⟨_, _, h⟩ := h _ rfl
    obtain ⟨_, _, h⟩ := h _ rfl
    have hfreed := (h _ rfl).freed
    exact absurd hfreed (by decide)

end Vcache
end Bohrium
