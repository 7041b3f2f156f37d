import Bohrium.Library.CInt
import Mathlib.Data.List.Nodup
import Mathlib.Data.Nat.Notation

/-! # StaticStore

`include/StaticStore.hpp`: slots of blocks, handed out one after the other, and erased ones again. Blocks are
numbered by their addresses, which `malloc` may give again once they are freed. -/
namespace Bohrium
open CInt
set_option autoImplicit false

/-- A slot: its block, and its position in the block. -/
abbrev Slot := ℕ × ℕ

structure StaticStore where
  bufferSize : ℕ
  buffer : ℕ
  /-- Its position in `buffer`. -/
  nextElement : ℕ := 0
  emptySlot : List Slot := []
  allocatedBuffers : List ℕ := []
  counter : ℤ := 0
  deriving DecidableEq, Repr

namespace StaticStore

/-- The blocks that are not freed. -/
def blocks (s : StaticStore) : List ℕ := s.buffer :: s.allocatedBuffers

/-- `c_next`, which throws when `malloc` returns `NULL`. -/
def cNext (malloc : Option ℕ) (s : StaticStore) : Option Slot × StaticStore :=
  let s := { s with counter := toInt32 (s.counter + 1) }
  match s.emptySlot with
  | e :: rest => (some e, { s with emptySlot := rest })
  | [] =>
    if s.nextElement < s.bufferSize then (some (s.buffer, s.nextElement), { s with nextElement := s.nextElement + 1 })
    else match malloc with
      | none => (none, s)
      | some block => (some (block, 0),
          { s with allocatedBuffers := s.allocatedBuffers ++ [s.buffer], buffer := block, nextElement := 1 })

def clear (s : StaticStore) : StaticStore :=
  { s with counter := 0, nextElement := 0, allocatedBuffers := [], emptySlot := [] }

def erase (s : StaticStore) (e : Slot) : StaticStore :=
  { s with counter := toInt32 (s.counter - 1), emptySlot := s.emptySlot ++ [e] }

/-- A block that is not in the store: what `malloc` returns while there is memory. -/
def newBlock (s : StaticStore) : ℕ := s.blocks.foldr max 0 + 1

theorem newBlock_not_mem (s : StaticStore) : s.newBlock ∉ s.blocks := by
  have hle : ∀ (bs : List ℕ), ∀ b ∈ bs, b ≤ bs.foldr max 0 := by
    intro bs
    induction bs with
    | nil => exact fun b hb => absurd hb List.not_mem_nil
    | cons c bs ih =>
      intro b hb
      obtain rfl | hb := List.mem_cons.mp hb
      · exact le_max_left _ _
      · exact (ih b hb).trans (le_max_right _ _)
  exact fun hmem => Nat.not_succ_le_self _ (hle _ _ hmem)

/-! ## Slots -/

/-- The slot was handed out since the last `clear`. -/
def Allocated (s : StaticStore) (e : Slot) : Prop :=
  (e.1 ∈ s.allocatedBuffers ∧ e.2 < s.bufferSize) ∨ (e.1 = s.buffer ∧ e.2 < s.nextElement)

def InUse (s : StaticStore) (e : Slot) : Prop := s.Allocated e ∧ e ∉ s.emptySlot

/-- Only slots that were handed out are empty, and none is so twice. -/
structure Valid (s : StaticStore) : Prop where
  size : 0 < s.bufferSize
  next : s.nextElement ≤ s.bufferSize
  fresh : s.buffer ∉ s.allocatedBuffers
  nodup : s.emptySlot.Nodup
  allocated : ∀ e ∈ s.emptySlot, s.Allocated e

theorem valid_start {size : ℕ} (hsize : 0 < size) (block : ℕ) : ({ bufferSize := size, buffer := block } : StaticStore).Valid where
  size := hsize
  next := Nat.zero_le _
  fresh := List.not_mem_nil
  nodup := List.nodup_nil
  allocated := by simp

theorem Allocated.block {s : StaticStore} {e : Slot} (h : s.Allocated e) : e.1 ∈ s.blocks := by
  rcases h with h | h
  · exact List.mem_cons_of_mem _ h.1
  · exact h.1 ▸ List.mem_cons_self

theorem Allocated.position {s : StaticStore} {e : Slot} (hnext : s.nextElement ≤ s.bufferSize) (h : s.Allocated e) :
    e.2 < s.bufferSize := by
  rcases h with h | h
  · exact h.2
  · exact h.2.trans_le hnext

/-- The store after it has handed out a slot. -/
structure Hands (s : StaticStore) (e : Slot) (t : StaticStore) : Prop where
  unused : ¬ s.InUse e
  block : e.1 ∈ t.blocks
  position : e.2 < s.bufferSize
  valid : t.Valid
  inUse : ∀ a, t.InUse a ↔ a = e ∨ s.InUse a
  counter : t.counter = toInt32 (s.counter + 1)

section
variable {s : StaticStore} (h : s.Valid)

include h

theorem hands_reuse {e : Slot} {rest : List Slot} (he : s.emptySlot = e :: rest) :
    Hands s e { s with counter := toInt32 (s.counter + 1), emptySlot := rest } := by
  have hnodup := h.nodup
  rw [he, List.nodup_cons] at hnodup
  have hmem : ∀ a ∈ rest, a ∈ s.emptySlot := fun a ha => he ▸ List.mem_cons_of_mem e ha
  have hold : s.Allocated e := h.allocated e (he ▸ List.mem_cons_self)
  refine ⟨fun hin => hin.2 (he ▸ List.mem_cons_self), hold.block, hold.position h.next, ?_, fun a => ?_, rfl⟩
  · exact ⟨h.size, h.next, h.fresh, hnodup.2, fun a ha => h.allocated a (hmem a ha)⟩
  · show s.Allocated a ∧ a ∉ rest ↔ a = e ∨ s.Allocated a ∧ a ∉ s.emptySlot
    rw [he, List.mem_cons, not_or]
    by_cases ha : a = e
    · subst ha
      simp [hold, hnodup.1]
    · simp [ha]

theorem hands_tail (he : s.emptySlot = []) (hlt : s.nextElement < s.bufferSize) :
    Hands s (s.buffer, s.nextElement) { s with counter := toInt32 (s.counter + 1), nextElement := s.nextElement + 1 } := by
  refine ⟨fun hin => ?_, List.mem_cons_self, hlt, ?_, fun a => ?_, rfl⟩
  · rcases hin.1 with hold | hold
    · exact h.fresh hold.1
    · exact Nat.lt_irrefl _ hold.2
  · refine ⟨h.size, hlt, h.fresh, h.nodup, ?_⟩
    show ∀ a ∈ s.emptySlot, _
    rw [he]
    exact fun a ha => absurd ha List.not_mem_nil
  · show (_ ∨ a.1 = s.buffer ∧ a.2 < s.nextElement + 1) ∧ a ∉ s.emptySlot ↔ a = (s.buffer, s.nextElement) ∨ s.Allocated a ∧ a ∉ s.emptySlot
    rw [he, Allocated, Prod.ext_iff]
    simp only [List.not_mem_nil, not_false_eq_true, and_true]
    constructor
    · rintro (hold | ⟨hbuffer, hle⟩)
      · exact Or.inr (Or.inl hold)
      · obtain heq | hlt := Nat.eq_or_lt_of_le (Nat.le_of_lt_succ hle)
        · exact Or.inl ⟨hbuffer, heq⟩
        · exact Or.inr (Or.inr ⟨hbuffer, hlt⟩)
    · rintro (⟨hbuffer, heq⟩ | hold | ⟨hbuffer, hlt⟩)
      · exact Or.inr ⟨hbuffer, heq ▸ Nat.lt_succ_self _⟩
      · exact Or.inl hold
      · exact Or.inr ⟨hbuffer, Nat.lt_succ_of_lt hlt⟩

theorem hands_block {block : ℕ} (hnew : block ∉ s.blocks) (he : s.emptySlot = []) (hlt : ¬ s.nextElement < s.bufferSize) :
    Hands s (block, 0) { s with
      counter := toInt32 (s.counter + 1), allocatedBuffers := s.allocatedBuffers ++ [s.buffer], buffer := block,
      nextElement := 1 } := by
  have hfull : s.nextElement = s.bufferSize := le_antisymm h.next (Nat.le_of_not_lt hlt)
  refine ⟨fun hin => hnew hin.1.block, List.mem_cons_self, h.size, ?_, fun a => ?_, rfl⟩
  · refine ⟨h.size, h.size, fun hmem => ?_, h.nodup, ?_⟩
    · rcases List.mem_append.mp hmem with hmem | hmem
      · exact hnew (List.mem_cons_of_mem _ hmem)
      · exact hnew (List.mem_cons.mpr (Or.inl (List.mem_singleton.mp hmem)))
    · show ∀ a ∈ s.emptySlot, _
      rw [he]
      exact fun a ha => absurd ha List.not_mem_nil
  · -- what was handed out before lies in the blocks that are set aside
    show (a.1 ∈ s.allocatedBuffers ++ [s.buffer] ∧ a.2 < s.bufferSize ∨ a.1 = block ∧ a.2 < 1) ∧ a ∉ s.emptySlot ↔
      a = (block, 0) ∨ s.Allocated a ∧ a ∉ s.emptySlot
    rw [he, Allocated, Prod.ext_iff, List.mem_append, List.mem_singleton, Nat.lt_one_iff, hfull]
    simp only [List.not_mem_nil, not_false_eq_true, and_true]
    tauto

/-- `c_next` hands out a slot that is not in use, or there is no memory for it. -/
theorem cNext_spec {malloc : Option ℕ} (hnew : ∀ block ∈ malloc, block ∉ s.blocks) :
    (∃ e t, s.cNext malloc = (some e, t) ∧ Hands s e t ∧ (malloc = none → s.emptySlot ≠ [] ∨ s.nextElement < s.bufferSize)) ∨
    (malloc = none ∧ s.emptySlot = [] ∧ ¬ s.nextElement < s.bufferSize ∧
      s.cNext malloc = (none, { s with counter := toInt32 (s.counter + 1) })) := by
  cases he : s.emptySlot with
  | cons e rest =>
    have hcell : s.cNext malloc = (some e, { s with counter := toInt32 (s.counter + 1), emptySlot := rest }) := by
      unfold cNext
      dsimp only
      rw [he]
    exact Or.inl ⟨_, _, hcell, hands_reuse h he, fun _ => Or.inl (List.cons_ne_nil e rest)⟩
  | nil =>
    by_cases hlt : s.nextElement < s.bufferSize
    · have hcell : s.cNext malloc = (some (s.buffer, s.nextElement),
          { s with counter := toInt32 (s.counter + 1), nextElement := s.nextElement + 1 }) := by
        unfold cNext
        dsimp only
        rw [he]
        dsimp only
        rw [if_pos hlt]
      exact Or.inl ⟨_, _, hcell, hands_tail h he hlt, fun _ => Or.inr hlt⟩
    · cases malloc with
      | some block =>
        have hcell : s.cNext (some block) = (some (block, 0), { s with
            counter := toInt32 (s.counter + 1), allocatedBuffers := s.allocatedBuffers ++ [s.buffer], buffer := block,
            nextElement := 1 }) := by
          unfold cNext
          dsimp only
          rw [he]
          dsimp only
          rw [if_neg hlt]
        exact Or.inl ⟨_, _, hcell, hands_block h (hnew block rfl) he hlt, fun hnone => by cases hnone⟩
      | none =>
        refine Or.inr ⟨rfl, rfl, hlt, ?_⟩
        unfold cNext
        dsimp only
        rw [he]
        dsimp only
        rw [if_neg hlt]

/-- While there is memory, `c_next` hands out a slot. -/
theorem cNext_newBlock : ∃ e t, s.cNext (some s.newBlock) = (some e, t) ∧ Hands s e t := by
  have hnew : ∀ block ∈ some s.newBlock, block ∉ s.blocks := by
    intro block hblock
    rw [← Option.some.inj hblock]
    exact newBlock_not_mem s
  obtain ⟨e, t, heq, hands, -⟩ | ⟨hnone, -⟩ := cNext_spec h hnew
  · exact ⟨e, t, heq, hands⟩
  · cases hnone

theorem erase_spec {a : Slot} (ha : s.InUse a) : (s.erase a).Valid ∧ ∀ e, (s.erase a).InUse e ↔ e ≠ a ∧ s.InUse e := by
  refine ⟨⟨h.size, h.next, h.fresh, ?_, fun e he => ?_⟩, fun e => ?_⟩
  · show (s.emptySlot ++ [a]).Nodup
    rw [List.nodup_append]
    refine ⟨h.nodup, List.nodup_singleton a, ?_⟩
    rintro x hx y hy rfl
    rw [List.mem_singleton.mp hy] at hx
    exact ha.2 hx
  · rcases List.mem_append.mp he with he | he
    · exact h.allocated e he
    · rw [List.mem_singleton.mp he]
      exact ha.1
  · show s.Allocated e ∧ e ∉ s.emptySlot ++ [a] ↔ e ≠ a ∧ s.Allocated e ∧ e ∉ s.emptySlot
    rw [List.mem_append, List.mem_singleton]
    tauto

theorem valid_clear : s.clear.Valid where
  size := h.size
  next := Nat.zero_le _
  fresh := List.not_mem_nil
  nodup := List.nodup_nil
  allocated := by simp [clear]

end

end StaticStore

end Bohrium
