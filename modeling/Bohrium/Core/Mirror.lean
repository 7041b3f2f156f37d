import Bohrium.Core.Instruction
import Bohrium.Core.StaticStore
import Bohrium.Library.Fold
import Mathlib.Data.Finset.Basic

/-! # Mirrored arrays

What the master and the slaves of the cluster, and the client and the server of the proxy, do alike. One
process notes which of its arrays the other one knows, and announces those of a batch that it does not.
The other one keeps a pair of maps beside a store: an array of the first process, named by its address,
is mirrored by a slot. An assert that fails is `none`. -/
namespace Bohrium
set_option autoImplicit false

/-! ## New arrays -/

/-- The arrays of a batch, operand by operand. -/
def basesOf (batch : List BhInstruction) : List BhBase :=
  batch.flatMap fun i => i.operands.filterMap BhView.base

/-- `dispatch_array` of the cluster and `array_header` of the proxy: an array that is new to the other
process. -/
structure NewArray where
  id : ℕ
  ary : BhBase
  deriving DecidableEq, Repr

/-- An operand of the batch: an array that is not known is packed and noted as known. -/
def packBase (acc : Finset ℕ × List NewArray) (b : BhBase) : Finset ℕ × List NewArray :=
  if b.addr ∈ acc.1 then acc else (insert b.addr acc.1, acc.2 ++ [⟨b.addr, b⟩])

/-- The scan of a batch for arrays that the other process does not know: what it knows afterwards, and
the new arrays. -/
def announce (known : Finset ℕ) (batch : List BhInstruction) : Finset ℕ × List NewArray :=
  (basesOf batch).foldl packBase (known, [])

/-! ## Mirrors -/

/-- The arrays of another process, the slots that mirror them, and the structs in the slots. -/
structure Mirror where
  toSlot : ℕ → Option Slot
  toRemote : Slot → Option ℕ
  header : Slot → BhBase
  store : StaticStore

namespace Mirror

/-- `StaticStore<bh_base>(512)` and empty maps. -/
def empty : Mirror := ⟨fun _ => none, fun _ => none, fun _ => ⟨0, .bool, 0⟩, { bufferSize := 512, buffer := 0 }⟩

/-- A new array: both asserts, the copy of the struct, and the insertion into both maps. There is memory for a block. -/
def insert (m : Mirror) (d : NewArray) : Option Mirror :=
  match m.store.cNext (some m.store.newBlock) with
  | (none, _) => none
  | (some slot, store) =>
    if (m.toSlot d.id).isSome || (m.toRemote slot).isSome then none
    else some ⟨Function.update m.toSlot d.id (some slot), Function.update m.toRemote slot (some d.id),
      Function.update m.header slot d.ary, store⟩

/-- The removal of an array: both asserts, and the removal from both maps and from the store. -/
def remove (m : Mirror) (slot : Slot) : Option Mirror :=
  match m.toRemote slot with
  | none => none
  | some id =>
    if (m.toSlot id).isSome then
      some ⟨Function.update m.toSlot id none, Function.update m.toRemote slot none, m.header, m.store.erase slot⟩
    else none

/-- The maps are inverse to each other, and mirror with slots in use. -/
structure Valid (m : Mirror) : Prop where
  inverse : ∀ id slot, m.toSlot id = some slot ↔ m.toRemote slot = some id
  inUse : ∀ slot id, m.toRemote slot = some id → m.store.InUse slot
  store : m.store.Valid

theorem valid_empty : empty.Valid := ⟨by simp [empty], by simp [empty], StaticStore.valid_start (by decide) 0⟩

/-- A new array is mirrored, and nothing else changes. -/
theorem insert_spec {m : Mirror} (h : m.Valid) {d : NewArray} (hid : m.toSlot d.id = none) :
    ∃ m' slot, m.insert d = some m' ∧ m'.Valid ∧ m'.toSlot = Function.update m.toSlot d.id (some slot) ∧
      m'.header = Function.update m.header slot d.ary ∧ ∀ id, m.toSlot id ≠ some slot := by
  generalize hdid : d.id = id at hid
  obtain ⟨slot, store, hc, hands⟩ := StaticStore.cNext_newBlock h.store
  have hslot : m.toRemote slot = none := by
    cases hr : m.toRemote slot with
    | none => rfl
    | some id' => exact absurd (h.inUse slot id' hr) hands.unused
  refine ⟨_, slot, by simp only [insert, hc, hdid, hid, hslot]; rfl,
    ⟨fun id' slot' => ?_, fun slot' id' hr => ?_, hands.valid⟩, rfl, rfl, fun id' hs => ?_⟩
  · by_cases hid' : id' = id
    · subst hid'
      by_cases hs : slot' = slot
      · simp [hs]
      · have hne : m.toRemote slot' ≠ some id' := by
          rw [Ne, ← h.inverse, hid]
          simp
        simp [hs, Ne.symm hs, hne]
    · by_cases hs : slot' = slot
      · subst hs
        have hne : m.toSlot id' ≠ some slot' := by
          rw [Ne, h.inverse, hslot]
          simp
        simp [hid', Ne.symm hid', hne]
      · simp [hid', hs, h.inverse]
  · dsimp only at hr
    by_cases hs : slot' = slot
    · exact (hands.inUse slot').mpr (Or.inl hs)
    · rw [Function.update_of_ne hs] at hr
      exact (hands.inUse slot').mpr (Or.inr (h.inUse slot' id' hr))
  · rw [h.inverse, hslot] at hs
    cases hs

/-- A mirrored array can be removed, and nothing else changes. -/
theorem remove_spec {m : Mirror} (h : m.Valid) {id : ℕ} {slot : Slot} (hid : m.toSlot id = some slot) :
    ∃ m', m.remove slot = some m' ∧ m'.Valid ∧ m'.toSlot = Function.update m.toSlot id none ∧
      m'.header = m.header := by
  have hr : m.toRemote slot = some id := (h.inverse id slot).mp hid
  obtain ⟨hvalid, huse⟩ := StaticStore.erase_spec h.store (h.inUse slot id hr)
  refine ⟨⟨Function.update m.toSlot id none, Function.update m.toRemote slot none, m.header, m.store.erase slot⟩,
    by simp [remove, hr, hid], ⟨fun id' slot' => ?_, fun slot' id' hr' => ?_, hvalid⟩, rfl, rfl⟩
  · by_cases hid' : id' = id
    · subst hid'
      by_cases hs : slot' = slot
      · simp [hs]
      · have hne : m.toRemote slot' ≠ some id' := by
          rw [Ne, ← h.inverse, hid]
          simpa using Ne.symm hs
        simp [hs, hne]
    · by_cases hs : slot' = slot
      · subst hs
        have hne : m.toSlot id' ≠ some slot' := by
          rw [Ne, h.inverse, hr]
          simpa using Ne.symm hid'
        simp [hid', hne]
      · simp [hid', hs, h.inverse]
  · dsimp only at hr'
    by_cases hs : slot' = slot
    · rw [hs, Function.update_self] at hr'
      cases hr'
    · rw [Function.update_of_ne hs] at hr'
      exact (huse slot').mpr ⟨hs, h.inUse slot' id' hr'⟩

end Mirror

/-! ## Translation -/

/-- An instruction whose operands are mirrors; a constant has none. -/
structure LocalInstr where
  opcode : BhOpcode
  operands : List (Option Slot)
  deriving DecidableEq, Repr

/-- An operand, after the assert that its array exists. -/
def convertOperand (m : Mirror) (v : BhView) : Option (Option Slot) :=
  match v.base with
  | none => some none
  | some b => (m.toSlot b.addr).map some

def convertInstr (m : Mirror) (i : BhInstruction) : Option LocalInstr :=
  (i.operands.mapM (convertOperand m)).map (LocalInstr.mk i.opcode)

/-- The translated instruction, if all its arrays are mirrored. -/
def localInstr (m : Mirror) (i : BhInstruction) : LocalInstr :=
  ⟨i.opcode, i.operands.map fun v => v.base.bind fun b => m.toSlot b.addr⟩

theorem mapM_convertInstr {m : Mirror} {batch : List BhInstruction}
    (h : ∀ b ∈ basesOf batch, (m.toSlot b.addr).isSome) :
    batch.mapM (convertInstr m) = some (batch.map (localInstr m)) := by
  apply Fold.mapM_eq_some
  intro i hi
  have hops : i.operands.mapM (convertOperand m) =
      some (i.operands.map fun v => v.base.bind fun b => m.toSlot b.addr) := by
    apply Fold.mapM_eq_some
    intro v hv
    unfold convertOperand
    cases hb : v.base with
    | none => rfl
    | some b =>
      have hmem : b ∈ basesOf batch :=
        List.mem_flatMap.mpr ⟨i, hi, List.mem_filterMap.mpr ⟨v, hv, hb⟩⟩
      obtain ⟨slot, hslot⟩ := Option.isSome_iff_exists.mp (h b hmem)
      simp [hslot]
  rw [convertInstr, hops]
  rfl

/-! ## Agreement -/

/-- No array is used, or discarded again, after its `BH_DISCARD`; and that names an array. -/
structure LegalBatch (batch : List BhInstruction) : Prop where
  names : ∀ i ∈ batch, i.opcode = .discard → i.operand0.base.isSome
  unused : batch.Pairwise fun i j => i.opcode = .discard → ∀ b, i.operand0.base = some b →
    ∀ b' ∈ j.operands.filterMap BhView.base, b'.addr ≠ b.addr

/-- One process mirrors the arrays that the other notes as known, and no others. -/
structure Agree (known : Finset ℕ) (m : Mirror) : Prop where
  keys : ∀ id, id ∈ known ↔ (m.toSlot id).isSome
  valid : m.Valid

theorem operands_eq_singleton {i : BhInstruction} (h : bhOperands i.opcode = 1) : i.operands = [i.operand0] := by
  simp [BhInstruction.operands, h]

theorem operands_discard {i : BhInstruction} (h : i.opcode = .discard) : i.operands = [i.operand0] :=
  operands_eq_singleton (by rw [h]; rfl)

theorem LegalBatch.tail {i : BhInstruction} {rest : List BhInstruction} (h : LegalBatch (i :: rest)) : LegalBatch rest :=
  ⟨(List.forall_mem_cons.mp h.names).2, (List.pairwise_cons.mp h.unused).2⟩

theorem mem_basesOf_cons {i : BhInstruction} {rest : List BhInstruction} {b : BhBase} (h : b ∈ basesOf rest) :
    b ∈ basesOf (i :: rest) := by
  rw [basesOf, List.flatMap_cons]
  exact List.mem_append_right _ h

section Packing
variable {known₀ : Finset ℕ} {acc : Finset ℕ × List NewArray}

/-- What was packed so far: new arrays, each once, and known are the old ones and these. -/
structure Packed (known₀ : Finset ℕ) (acc : Finset ℕ × List NewArray) : Prop where
  nodup : (acc.2.map NewArray.id).Nodup
  fresh : ∀ d ∈ acc.2, d.id ∉ known₀
  known : ∀ id, id ∈ acc.1 ↔ id ∈ known₀ ∨ id ∈ acc.2.map NewArray.id
  addr : ∀ d ∈ acc.2, d.id = d.ary.addr

theorem Packed.packBase (h : Packed known₀ acc) (b : BhBase) :
    Packed known₀ (packBase acc b) ∧ acc.1 ⊆ (packBase acc b).1 ∧ b.addr ∈ (packBase acc b).1 := by
  unfold Bohrium.packBase
  split_ifs with hb
  · exact ⟨h, Finset.Subset.refl _, hb⟩
  · have hnew : b.addr ∉ known₀ ∧ b.addr ∉ acc.2.map NewArray.id := by
      rw [h.known, not_or] at hb
      exact hb
    refine ⟨⟨?_, ?_, ?_, ?_⟩, Finset.subset_insert _ _, Finset.mem_insert_self _ _⟩
    · rw [List.map_append, List.nodup_append]
      refine ⟨h.nodup, List.nodup_singleton _, ?_⟩
      intro x hx y hy heq
      rw [List.map_singleton, List.mem_singleton] at hy
      rw [heq, hy] at hx
      exact hnew.2 hx
    · intro d hd
      rcases List.mem_append.mp hd with hd | hd
      · exact h.fresh d hd
      · rw [List.mem_singleton.mp hd]
        exact hnew.1
    · intro id
      rw [Finset.mem_insert, h.known, List.map_append, List.mem_append, List.map_singleton, List.mem_singleton]
      tauto
    · intro d hd
      rcases List.mem_append.mp hd with hd | hd
      · exact h.addr d hd
      · rw [List.mem_singleton.mp hd]

theorem Packed.foldl (h : Packed known₀ acc) (bases : List BhBase) :
    Packed known₀ (bases.foldl Bohrium.packBase acc) ∧ acc.1 ⊆ (bases.foldl Bohrium.packBase acc).1 ∧
      ∀ b ∈ bases, b.addr ∈ (bases.foldl Bohrium.packBase acc).1 := by
  induction bases generalizing acc with
  | nil => exact ⟨h, Finset.Subset.refl _, fun b hb => absurd hb List.not_mem_nil⟩
  | cons b bases ih =>
    obtain ⟨hstep, hsub, hb⟩ := h.packBase b
    obtain ⟨hall, hsub', hmem⟩ := ih hstep
    refine ⟨hall, hsub.trans hsub', fun c hc => ?_⟩
    rcases List.mem_cons.mp hc with rfl | hc
    · exact hsub' hb
    · exact hmem c hc

theorem mem_foldl_packBase {bases : List BhBase} {acc : Finset ℕ × List NewArray} {d : NewArray}
    (hd : d ∈ (bases.foldl Bohrium.packBase acc).2) : d ∈ acc.2 ∨ d.ary ∈ bases := by
  induction bases generalizing acc with
  | nil => exact Or.inl hd
  | cons b bases ih =>
    rcases ih hd with hmem | hmem
    · unfold Bohrium.packBase at hmem
      split_ifs at hmem
      · exact Or.inl hmem
      · rcases List.mem_append.mp hmem with hmem | hmem
        · exact Or.inl hmem
        · rw [List.mem_singleton.mp hmem]
          exact Or.inr List.mem_cons_self
    · exact Or.inr (List.mem_cons_of_mem b hmem)

/-- Afterwards every array of the batch is known. -/
theorem announce_spec (known : Finset ℕ) (batch : List BhInstruction) :
    Packed known (announce known batch) ∧ (∀ b ∈ basesOf batch, b.addr ∈ (announce known batch).1) ∧
      ∀ d ∈ (announce known batch).2, d.ary ∈ basesOf batch := by
  have hstart : Packed known (known, []) := ⟨List.nodup_nil, by simp, by simp, by simp⟩
  obtain ⟨hpacked, _, hmem⟩ := hstart.foldl (basesOf batch)
  refine ⟨hpacked, hmem, fun d hd => ?_⟩
  rcases mem_foldl_packBase hd with hnil | hmem
  · cases hnil
  · exact hmem

end Packing

/-- Arrays that are not mirrored yet can be unpacked. -/
theorem foldlM_insert {m : Mirror} (h : m.Valid) {ds : List NewArray} (hnodup : (ds.map NewArray.id).Nodup)
    (hnew : ∀ d ∈ ds, m.toSlot d.id = none) :
    ∃ m', ds.foldlM Mirror.insert m = some m' ∧ m'.Valid ∧
      (∀ id, (m'.toSlot id).isSome ↔ (m.toSlot id).isSome ∨ id ∈ ds.map NewArray.id) ∧
      (∀ id slot, m.toSlot id = some slot → m'.toSlot id = some slot ∧ m'.header slot = m.header slot) ∧
      ∀ d ∈ ds, ∃ slot, m'.toSlot d.id = some slot ∧ m'.header slot = d.ary := by
  induction ds generalizing m with
  | nil => exact ⟨m, rfl, h, by simp, fun _ _ hs => ⟨hs, rfl⟩, fun d hd => absurd hd List.not_mem_nil⟩
  | cons d ds ih =>
    rw [List.map_cons, List.nodup_cons] at hnodup
    rw [List.forall_mem_cons] at hnew
    obtain ⟨m₁, slot, hinsert, hvalid, hslot, hheader, hunused⟩ := Mirror.insert_spec h hnew.1
    obtain ⟨m₂, hfold, hvalid₂, hkeys, hkeep, hds⟩ := ih hvalid hnodup.2 (fun e he => by
      rw [hslot, Function.update_of_ne]
      · exact hnew.2 e he
      · intro heq
        exact hnodup.1 (heq ▸ List.mem_map_of_mem he))
    refine ⟨m₂, ?_, hvalid₂, fun id => ?_, fun id s hs => ?_, fun e he => ?_⟩
    · rw [List.foldlM_cons, hinsert]
      exact hfold
    · rw [hkeys, hslot, List.map_cons, List.mem_cons]
      by_cases hid : id = d.id
      · simp [hid]
      · simp [hid]
    · have hid : id ≠ d.id := by
        rintro rfl
        rw [hnew.1] at hs
        cases hs
      have hne : s ≠ slot := by
        rintro rfl
        exact hunused id hs
      obtain ⟨hs', hh'⟩ := hkeep id s (by rw [hslot, Function.update_of_ne hid, hs])
      exact ⟨hs', by rw [hh', hheader, Function.update_of_ne hne]⟩
    · rcases List.mem_cons.mp he with rfl | he
      · obtain ⟨hs', hh'⟩ := hkeep e.id slot (by rw [hslot, Function.update_self])
        exact ⟨slot, hs', by rw [hh', hheader, Function.update_self]⟩
      · exact hds e he

end Bohrium
