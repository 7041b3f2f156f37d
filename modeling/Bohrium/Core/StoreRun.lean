import Bohrium.Core.StaticStore
import Bohrium.Library.Rounds

/-! # Runs of StaticStore

A client that calls `c_next`, `erase` and `clear`. The slots handed out are always unused ones of blocks that are not
freed; the counter is right as long as no `malloc` fails and an `int` holds it. -/
namespace Bohrium.StoreRun
open Rounds CInt
set_option autoImplicit false

/-! ## A client -/

/-- The slots in use are those handed out since the last `clear` and not erased. -/
structure Client where
  store : StaticStore
  inUse : List Slot := []
  deriving DecidableEq, Repr

/-- A call, with what `malloc` would answer. -/
inductive Call
  | cNext (malloc : Option ℕ)
  | erase (e : Slot)
  | clear
  deriving DecidableEq, Repr

/-- Slots in use are erased only, and `malloc` returns no block that is not freed. -/
def call (c : Client) : Call → Option Client
  | .cNext malloc =>
    if ∃ block ∈ malloc, block ∈ c.store.blocks then none
    else
      let (e, s) := c.store.cNext malloc
      some ⟨s, e.toList ++ c.inUse⟩
  | .erase e => if e ∈ c.inUse then some ⟨c.store.erase e, c.inUse.erase e⟩ else none
  | .clear => some ⟨c.store.clear, []⟩

/-- The counter is the number of slots in use. -/
def Counted (c : Client) : Prop := c.store.counter = c.inUse.length

/-- The slot that is handed out lies in a block that is not freed, and is not in use. -/
def HandsOut (c : Client) : Call → Prop
  | .cNext malloc => (∀ block ∈ malloc, block ∉ c.store.blocks) → ∀ e ∈ (c.store.cNext malloc).1,
      e.1 ∈ (c.store.cNext malloc).2.blocks ∧ e.2 < c.store.bufferSize ∧ e ∉ c.inUse
  | _ => True

/-- `c_next` has a slot to hand out, and an `int` counts it. -/
def Served (c : Client) : Call → Prop
  | .cNext malloc => (∀ block ∈ malloc, block ∉ c.store.blocks) →
      (malloc = none → c.store.emptySlot ≠ [] ∨ c.store.nextElement < c.store.bufferSize) ∧
      FitsInt32 (c.inUse.length + 1)
  | _ => True

/-! ## What the store and its client agree on -/

/-- The client uses the slots that are in use. -/
structure Valid (c : Client) : Prop where
  store : c.store.Valid
  nodup : c.inUse.Nodup
  inUse : ∀ e, e ∈ c.inUse ↔ c.store.InUse e
  counted : Counted c
  fits : FitsInt32 c.inUse.length

variable {c : Client}

theorem valid_start {size : ℕ} (hsize : 0 < size) (block : ℕ) : Valid ⟨{ bufferSize := size, buffer := block }, []⟩ where
  store := StaticStore.valid_start hsize block
  nodup := List.nodup_nil
  inUse e := by simp [StaticStore.InUse, StaticStore.Allocated]
  counted := rfl
  fits := show FitsInt32 0 by decide

theorem Valid.hands (h : Valid c) (hfits : FitsInt32 (c.inUse.length + 1)) {e : Slot} {s : StaticStore}
    (hs : StaticStore.Hands c.store e s) : Valid ⟨s, e :: c.inUse⟩ where
  store := hs.valid
  nodup := List.nodup_cons.mpr ⟨fun hin => hs.unused ((h.inUse e).mp hin), h.nodup⟩
  inUse a := by
    show a ∈ e :: c.inUse ↔ s.InUse a
    rw [List.mem_cons, h.inUse, hs.inUse]
  counted := by
    show s.counter = ((e :: c.inUse).length : ℤ)
    rw [hs.counter, show c.store.counter = c.inUse.length from h.counted, toInt32_of_fits hfits, List.length_cons, Nat.cast_succ]
  fits := by
    show FitsInt32 ((e :: c.inUse).length : ℤ)
    rwa [List.length_cons, Nat.cast_succ]

theorem Valid.erase (h : Valid c) {e : Slot} (he : e ∈ c.inUse) : Valid ⟨c.store.erase e, c.inUse.erase e⟩ := by
  obtain ⟨hstore, hinUse⟩ := StaticStore.erase_spec h.store ((h.inUse e).mp he)
  have hlength := List.length_erase_of_mem he
  have hpos := List.length_pos_of_mem he
  have hfits := h.fits
  have hcount : ((c.inUse.erase e).length : ℤ) = c.inUse.length - 1 := by omega
  have hfits' : FitsInt32 (c.inUse.erase e).length := by
    unfold FitsInt32 at hfits ⊢
    omega
  refine ⟨hstore, h.nodup.erase e, fun a => ?_, ?_, hfits'⟩
  · show a ∈ c.inUse.erase e ↔ (c.store.erase e).InUse a
    rw [h.nodup.mem_erase_iff, h.inUse, hinUse]
  · show toInt32 (c.store.counter - 1) = _
    rw [show c.store.counter = c.inUse.length from h.counted, hcount, toInt32_of_fits (hcount ▸ hfits')]

theorem Valid.clear (h : Valid c) : Valid ⟨c.store.clear, []⟩ where
  store := StaticStore.valid_clear h.store
  nodup := List.nodup_nil
  inUse e := by simp [StaticStore.InUse, StaticStore.Allocated, StaticStore.clear]
  counted := rfl
  fits := show FitsInt32 0 by decide

/-! ## Runs -/

theorem toInt32_succ_ne (n : ℕ) : toInt32 (n + 1) ≠ n := by
  intro h
  have hmod := toInt32_emod (n + 1)
  rw [h] at hmod
  omega

/-- In a run of a store the counter is right, and every slot handed out is an unused one of a block that
is not freed, exactly if no `malloc` fails and an `int` counts the slots. -/
theorem store_run_iff {size : ℕ} (hsize : 0 < size) (block : ℕ) (calls : List Call) :
    Throughout call Counted HandsOut ⟨{ bufferSize := size, buffer := block }, []⟩ calls ↔
      Throughout call (fun _ => True) Served ⟨{ bufferSize := size, buffer := block }, []⟩ calls := by
  refine throughout_iff (I := Valid) (fun c hc => iff_of_true hc.counted trivial) ?_ ?_ (valid_start hsize block)
  · intro c a hc ha
    cases a with
    | cNext malloc =>
      have hserved : (∀ b ∈ malloc, b ∉ c.store.blocks) → ∃ e s, c.store.cNext malloc = (some e, s) ∧
          StaticStore.Hands c.store e s ∧ Valid ⟨s, e :: c.inUse⟩ := by
        intro hnew
        obtain ⟨hslot, hfits⟩ := ha hnew
        rcases StaticStore.cNext_spec hc.store hnew with ⟨e, s, heq, hs, -⟩ | ⟨hnone, hempty, hfull, -⟩
        · exact ⟨e, s, heq, hs, hc.hands hfits hs⟩
        · exact absurd (hslot hnone) (not_or.mpr ⟨not_not.mpr hempty, hfull⟩)
      constructor
      · intro hnew e he
        obtain ⟨e', s, heq, hs, -⟩ := hserved hnew
        rw [heq] at he ⊢
        obtain rfl := Option.some.inj he
        exact ⟨hs.block, hs.position, fun hin => hs.unused ((hc.inUse e').mp hin)⟩
      · intro c' hc'
        rw [call] at hc'
        split_ifs at hc' with hold
        have hnew : ∀ b ∈ malloc, b ∉ c.store.blocks := fun b hb hmem => hold ⟨b, hb, hmem⟩
        obtain ⟨e, s, heq, -, hvalid⟩ := hserved hnew
        rw [heq] at hc'
        obtain rfl := Option.some.inj hc'
        exact hvalid
    | erase e =>
      refine ⟨trivial, fun c' hc' => ?_⟩
      rw [call] at hc'
      split_ifs at hc' with he
      obtain rfl := Option.some.inj hc'
      exact hc.erase he
    | clear =>
      refine ⟨trivial, fun c' hc' => ?_⟩
      obtain rfl := Option.some.inj hc'
      exact hc.clear
  · intro c a hc _ hgood
    cases a with
    | cNext malloc =>
      intro hnew
      have hcall : call c (.cNext malloc) =
          some ⟨(c.store.cNext malloc).2, (c.store.cNext malloc).1.toList ++ c.inUse⟩ :=
        if_neg fun hold => by
          obtain ⟨b, hb, hmem⟩ := hold
          exact hnew b hb hmem
      have hcounted := hgood _ hcall
      rcases StaticStore.cNext_spec hc.store hnew with ⟨e, s, heq, hs, hslot⟩ | ⟨-, -, -, heq⟩
      · refine ⟨hslot, ?_⟩
        rw [Counted, heq, hs.counter, show c.store.counter = c.inUse.length from hc.counted] at hcounted
        rw [← toInt32_eq_self_iff, hcounted]
        simp
      · rw [Counted, heq, show c.store.counter = c.inUse.length from hc.counted] at hcounted
        simp only [Option.toList_none, List.nil_append] at hcounted
        exact (toInt32_succ_ne c.inUse.length hcounted).elim
    | erase e => trivial
    | clear => trivial

/-- A slot handed out and given back. -/
theorem store_run_reuse : Throughout call Counted HandsOut ⟨{ bufferSize := 2, buffer := 0 }, []⟩
    [.cNext none, .erase (0, 0)] := by
  apply (store_run_iff (by decide) 0 [.cNext none, .erase (0, 0)]).mpr
  refine ⟨trivial, fun _ => ⟨fun _ => Or.inr (by decide), by decide⟩, fun c hc => ?_⟩
  obtain rfl := Option.some.inj hc
  refine ⟨trivial, trivial, fun c' hc' => ?_⟩
  obtain rfl := Option.some.inj hc'
  trivial

theorem not_store_run_exhausted : ¬ ∀ (size block : ℕ) (calls : List Call), 0 < size →
    Throughout call Counted HandsOut ⟨{ bufferSize := size, buffer := block }, []⟩ calls := by
  intro h
  have hfull := ((h 1 0 [.cNext none, .cNext none] (by decide)).2.2 _ rfl).2.2 _ rfl
  revert hfull
  unfold Throughout Counted
  decide

end Bohrium.StoreRun
