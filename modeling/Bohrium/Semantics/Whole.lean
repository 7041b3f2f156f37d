import Bohrium.Semantics.Loop
import Mathlib.Data.List.Induction

/-! # Whole-array semantics

What an instruction means before an engine chooses loops for it: every input is read before
anything is written. The filters in front of the engines rewrite instruction lists, and this is the
meaning they have to keep. -/
namespace Bohrium
open Strided Reorder
set_option autoImplicit false

/-! ## Stores -/

/-- A sequence of stores; a later one wins. -/
def applyStores {V : Type} (st : List (Loc × V)) (m : Mem V) : Mem V :=
  st.foldl (fun m p => Function.update m p.1 p.2) m

/-- One store per index of a view, in row-major order. -/
def storesTo {V : Type} (v : BhView) (f : List ℕ → V) : List (Loc × V) :=
  match v.base with
  | none => []
  | some b => (indices v.shape).map fun idx => ((b, v.offset idx), f idx)

/-- The last index of a view at an offset: the one whose store stays. -/
def BhView.lastAt (v : BhView) (o : ℤ) : Option (List ℕ) :=
  (indices v.shape).reverse.find? fun idx => v.offset idx == o

section Stores
variable {V : Type}

theorem applyStores_append (st st' : List (Loc × V)) (m : Mem V) :
    applyStores (st ++ st') m = applyStores st' (applyStores st m) := List.foldl_append

theorem applyStores_of_notMem {st : List (Loc × V)} {l : Loc} (h : ∀ p ∈ st, p.1 ≠ l) (m : Mem V) :
    applyStores st m l = m l := by
  induction st generalizing m with
  | nil => rfl
  | cons p st ih =>
    show applyStores st (Function.update m p.1 p.2) l = m l
    rw [ih (fun q hq => h q (List.mem_cons_of_mem p hq))]
    exact Function.update_of_ne (h p List.mem_cons_self).symm _ _

/-- A location after one store per index holds the value of the last index there. -/
theorem applyStores_map (b : BhBase) (off : List ℕ → ℤ) (f : List ℕ → V) (is : List (List ℕ))
    (m : Mem V) (o : ℤ) :
    applyStores (is.map fun idx => ((b, off idx), f idx)) m (b, o) =
      ((is.reverse.find? fun idx => off idx == o).map f).getD (m (b, o)) := by
  induction is using List.reverseRecOn with
  | nil => rfl
  | append_singleton is idx ih =>
    rw [List.map_append, applyStores_append, List.reverse_append, List.reverse_singleton,
      List.singleton_append, List.find?_cons]
    generalize hm : applyStores (is.map fun idx => ((b, off idx), f idx)) m = m' at ih
    show Function.update m' (b, off idx) (f idx) (b, o) = _
    by_cases ho : off idx = o
    · simp [ho]
    · rw [Function.update_of_ne (by simpa using Ne.symm ho), ih, beq_false_of_ne ho]

theorem applyStores_storesTo {v : BhView} {b : BhBase} (hb : v.base = some b) (f : List ℕ → V)
    (m : Mem V) (o : ℤ) :
    applyStores (storesTo v f) m (b, o) = ((v.lastAt o).map f).getD (m (b, o)) := by
  simp only [storesTo, hb]
  exact applyStores_map b v.offset f _ m o

theorem storesTo_base {v : BhView} {f : List ℕ → V} {p : Loc × V} (hp : p ∈ storesTo v f) :
    v.base = some p.1.1 := by
  unfold storesTo at hp
  cases hb : v.base with
  | none => simp [hb] at hp
  | some b =>
    simp only [hb, List.mem_map] at hp
    obtain ⟨idx, _, rfl⟩ := hp
    rfl

theorem applyStores_storesTo_of_base_ne {v : BhView} (f : List ℕ → V) (m : Mem V) {l : Loc}
    (h : v.base ≠ some l.1) : applyStores (storesTo v f) m l = m l := by
  apply applyStores_of_notMem
  intro p hp hl
  exact h (hl ▸ storesTo_base hp)

end Stores

namespace BhView

theorem lastAt_mem {v : BhView} {o : ℤ} {idx : List ℕ} (h : v.lastAt o = some idx) :
    idx ∈ indices v.shape ∧ v.offset idx = o := by
  refine ⟨?_, ?_⟩
  · simpa using List.mem_of_find?_eq_some h
  · simpa using List.find?_some h

theorem lastAt_isSome {v : BhView} {idx : List ℕ} (h : idx ∈ indices v.shape) :
    ∃ idx', v.lastAt (v.offset idx) = some idx' := by
  rw [← Option.isSome_iff_exists]
  unfold lastAt
  rw [List.find?_isSome]
  exact ⟨idx, by simpa using h, by simp⟩

/-- No two indices of the view share an offset. -/
def Injective (v : BhView) : Prop := v.offsets.Nodup

instance (v : BhView) : Decidable v.Injective := inferInstanceAs (Decidable v.offsets.Nodup)

theorem Injective.offset_inj {v : BhView} (h : v.Injective) {idx idx' : List ℕ}
    (hi : idx ∈ indices v.shape) (hi' : idx' ∈ indices v.shape) (he : v.offset idx = v.offset idx') :
    idx = idx' := by
  unfold Injective at h
  rw [offsets_eq_map] at h
  exact List.inj_on_of_nodup_map h hi hi' he

theorem Injective.lastAt_offset {v : BhView} (h : v.Injective) {idx : List ℕ}
    (hi : idx ∈ indices v.shape) : v.lastAt (v.offset idx) = some idx := by
  obtain ⟨idx', he⟩ := lastAt_isSome hi
  obtain ⟨hmem, hoff⟩ := lastAt_mem he
  rw [he, h.offset_inj hmem hi hoff]

end BhView

section Overwrite
variable {V : Type} {I : Interp V} {c : BhConstant}

theorem load_congr_base (I : Interp V) {c : BhConstant} {v : BhView} {idx : List ℕ} {m m' : Mem V}
    (h : ∀ l : Loc, v.base = some l.1 → m l = m' l) : load I c v idx m = load I c v idx m' := by
  unfold load
  cases hb : v.base with
  | none => rfl
  | some b => exact h (b, v.offset idx) hb

/-- What is stored matters only at the last index of each offset. -/
theorem applyStores_storesTo_congr {v : BhView} {f g : List ℕ → V} {m m' : Mem V} {l : Loc}
    (hm : m l = m' l) (h : ∀ r ∈ indices v.shape, v.lastAt (v.offset r) = some r → f r = g r) :
    applyStores (storesTo v f) m l = applyStores (storesTo v g) m' l := by
  by_cases hb : v.base = some l.1
  · obtain ⟨b, o⟩ := l
    rw [applyStores_storesTo hb, applyStores_storesTo hb, hm]
    cases hr : v.lastAt o with
    | none => rfl
    | some r =>
      obtain ⟨hmem, hoff⟩ := v.lastAt_mem hr
      exact congrArg (fun x => (some x).getD _) (h r hmem (by rw [hoff, hr]))
  · rw [applyStores_storesTo_of_base_ne f m hb, applyStores_storesTo_of_base_ne g m' hb, hm]

/-- Storing to a view again hides what was stored there before. -/
theorem applyStores_storesTo_twice (v : BhView) (f g : List ℕ → V) (m : Mem V) :
    applyStores (storesTo v g) (applyStores (storesTo v f) m) = applyStores (storesTo v g) m := by
  funext l
  by_cases hb : v.base = some l.1
  · obtain ⟨b, o⟩ := l
    rw [applyStores_storesTo hb, applyStores_storesTo hb, applyStores_storesTo hb]
    cases v.lastAt o <;> rfl
  · rw [applyStores_storesTo_of_base_ne g _ hb, applyStores_storesTo_of_base_ne f m hb,
      applyStores_storesTo_of_base_ne g m hb]

theorem load_of_base {v : BhView} {b : BhBase} (hb : v.base = some b) (c : BhConstant) (idx : List ℕ)
    (m : Mem V) : load I c v idx m = m (b, v.offset idx) := by
  simp [load, hb]

theorem load_storesTo {v : BhView} (hb : v.base.isSome) {r : List ℕ}
    (hr : v.lastAt (v.offset r) = some r) (f : List ℕ → V) (m : Mem V) :
    load I c v r (applyStores (storesTo v f) m) = f r := by
  obtain ⟨b, hb⟩ := Option.isSome_iff_exists.mp hb
  rw [load_of_base hb, applyStores_storesTo hb, hr]
  rfl

theorem load_storesTo_of_base_ne {v w : BhView} (h : ∀ b, w.base = some b → v.base ≠ some b)
    (f : List ℕ → V) (idx : List ℕ) (m : Mem V) :
    load I c w idx (applyStores (storesTo v f) m) = load I c w idx m :=
  load_congr_base I fun l hl => applyStores_storesTo_of_base_ne f m (h l.1 hl)

theorem load_storesTo_of_not_overlap {v w : BhView} (h : ¬ BhView.Overlap v w) (f : List ℕ → V)
    {idx : List ℕ} (hidx : idx ∈ indices w.shape) (m : Mem V) :
    load I c w idx (applyStores (storesTo v f) m) = load I c w idx m := by
  cases hb : w.base with
  | none => simp [load, hb]
  | some b =>
    rw [load_of_base hb, load_of_base hb]
    by_cases hv : v.base = some b
    · rw [applyStores_storesTo hv]
      cases hr : v.lastAt (w.offset idx) with
      | none => rfl
      | some r =>
        obtain ⟨hmem, hoff⟩ := v.lastAt_mem hr
        refine absurd ⟨by simp [hv], by rw [hv, hb], w.offset idx, ?_, ?_⟩ h
        · rw [← hoff, BhView.offsets_eq_map]
          exact List.mem_map_of_mem hmem
        · rw [BhView.offsets_eq_map]
          exact List.mem_map_of_mem hidx
    · exact applyStores_storesTo_of_base_ne f m hv

end Overwrite

/-! ## The meaning of an instruction -/

namespace BhInstruction

/-- A reduction into a one-element base reduces over all axes. -/
def isComplete (i : BhInstruction) : Bool := i.operand0.base.map BhBase.nelem == some 1

/-- The input indices that an output element of a reduction combines. -/
def fibre (i : BhInstruction) (o : List ℕ) : List (List ℕ) :=
  (indices i.operand1.shape).filter fun idx => i.isComplete || reduceIndex i.axis idx == o

/-- The input indices that an output element of an accumulation combines. -/
def upTo (i : BhInstruction) (idx : List ℕ) : List (List ℕ) :=
  (List.range (idx.getD i.axis 0 + 1)).map fun k => idx.set i.axis k

end BhInstruction

section Whole
variable {V : Type} (I : Interp V)

def Interp.reduce (opcode : BhOpcode) (type : Option BhType) : List V → V
  | [] => I.neutral opcode
  | x :: xs => xs.foldl (I.sweep opcode type) x

/-- The stores of an instruction, with the values its inputs have in `m`. -/
def wholeStores (i : BhInstruction) (m : Mem V) : List (Loc × V) :=
  match i.kind with
  | .system => []
  | .elementwise =>
    storesTo i.operand0 fun idx =>
      I.ewise i.opcode i.types (i.inputs.map fun v => load I i.constant v idx m)
  | .generator =>
    storesTo i.operand0 fun idx =>
      I.generate i.opcode i.outType i.constant (flatIndex i.operand0.shape idx)
  | .reduction =>
    storesTo i.operand0 fun o =>
      I.reduce i.opcode i.outType ((i.fibre o).map fun idx => load I i.constant i.operand1 idx m)
  | .accumulate =>
    storesTo i.operand0 fun o =>
      I.reduce i.opcode i.outType ((i.upTo o).map fun idx => load I i.constant i.operand1 idx m)
  | .gather =>
    storesTo i.operand0 fun idx =>
      loadFlat I i.constant i.operand1 (I.toIndex (load I i.constant i.operand2 idx m)) m
  | .scatter =>
    (indices i.operand1.shape).flatMap fun idx =>
      let k := I.toIndex (load I i.constant i.operand2 idx m)
      (storesTo i.operand0 fun _ => load I i.constant i.operand1 idx m)[k]?.toList
  | .other =>
    storesTo i.operand0 fun idx =>
      I.other i.opcode i.constant (i.inputs.map fun v => (v.shape, contents I i.constant v m)) idx

def runWhole (i : BhInstruction) (m : Mem V) : Mem V := applyStores (wholeStores I i m) m

/-- One instruction after the other. -/
def runList (l : List BhInstruction) (m : Mem V) : Mem V := l.foldl (fun m i => runWhole I i m) m

theorem runList_nil (m : Mem V) : runList I [] m = m := rfl

theorem runList_cons (i : BhInstruction) (l : List BhInstruction) (m : Mem V) :
    runList I (i :: l) m = runList I l (runWhole I i m) := rfl

theorem runList_append (l l' : List BhInstruction) (m : Mem V) :
    runList I (l ++ l') m = runList I l' (runList I l m) := List.foldl_append

theorem runWhole_system {i : BhInstruction} (h : i.isSystem = true) (m : Mem V) : runWhole I i m = m := by
  have hk : i.kind = .system := if_pos h
  simp [runWhole, wholeStores, hk, applyStores]

theorem wholeStores_base {i : BhInstruction} {m : Mem V} {p : Loc × V} (hp : p ∈ wholeStores I i m) :
    i.operand0.base = some p.1.1 := by
  unfold wholeStores at hp
  cases hk : i.kind with
  | system => simp [hk] at hp
  | scatter =>
    simp only [hk, List.mem_flatMap, Option.mem_toList] at hp
    obtain ⟨idx, _, hp⟩ := hp
    exact storesTo_base (List.mem_of_getElem? hp)
  | _ =>
    simp only [hk] at hp
    exact storesTo_base hp

/-! ## Footprints by base -/

/-- The locations in the base arrays of the operands. -/
def BhInstruction.onBases (i : BhInstruction) : Set Loc := {l | ∃ v ∈ i.operands, v.base = some l.1}

theorem wholeStores_congr {i : BhInstruction} {m m' : Mem V} (h : ∀ l ∈ i.onBases, m l = m' l) :
    wholeStores I i m = wholeStores I i m' := by
  have hload : ∀ v ∈ i.operands, ∀ idx, load I i.constant v idx m = load I i.constant v idx m' :=
    fun v hv idx => load_congr_base I fun l hl => h l ⟨v, hv, hl⟩
  have hin : ∀ v ∈ i.inputs, ∀ idx, load I i.constant v idx m = load I i.constant v idx m' :=
    fun v hv => hload v (BhInstruction.mem_operands_of_mem_inputs hv)
  have hthree : bhOperands i.opcode = 3 → i.operand1 ∈ i.operands ∧ i.operand2 ∈ i.operands :=
    fun h3 => by simp [BhInstruction.operands, h3]
  unfold wholeStores
  cases hk : i.kind with
  | system => rfl
  | elementwise =>
    refine congrArg (storesTo i.operand0) (funext fun idx => ?_)
    exact congrArg _ (List.map_congr_left fun v hv => hin v hv idx)
  | generator => rfl
  | reduction =>
    obtain ⟨h1, _⟩ := hthree (bhOperands_of_kind (Or.inl hk))
    simp only [hload _ h1]
  | accumulate =>
    obtain ⟨h1, _⟩ := hthree (bhOperands_of_kind (Or.inr (Or.inl hk)))
    simp only [hload _ h1]
  | gather =>
    obtain ⟨h1, h2⟩ := hthree (bhOperands_of_kind (Or.inr (Or.inr (Or.inl hk))))
    simp only [hload _ h2, loadFlat, hload _ h1]
  | scatter =>
    obtain ⟨h1, h2⟩ := hthree (bhOperands_of_kind (Or.inr (Or.inr (Or.inr hk))))
    simp only [hload _ h1, hload _ h2]
  | other =>
    refine congrArg (storesTo i.operand0) (funext fun idx => ?_)
    refine congrArg (fun xs => I.other i.opcode i.constant xs idx) (List.map_congr_left fun v hv => ?_)
    exact congrArg (v.shape, ·) (List.map_congr_left fun idx' _ => hin v hv idx')

/-- An instruction reads and writes nothing outside the bases of its operands. -/
theorem runWhole_footprint (i : BhInstruction) : Footprint (runWhole I i) i.onBases i.onBases := by
  refine ⟨fun m l hl => ?_, fun m m' hm l hl => ?_⟩
  · apply applyStores_of_notMem
    intro p hp he
    have hk : i.kind ≠ .system := by
      intro hk
      simp [wholeStores, hk] at hp
    refine hl ⟨i.operand0, BhInstruction.operand0_mem (bhOperands_ne_zero_of_kind hk), ?_⟩
    exact he ▸ wholeStores_base I hp
  · unfold runWhole
    rw [wholeStores_congr I hm]
    generalize wholeStores I i m' = st
    induction st generalizing m m' with
    | nil => exact hm l hl
    | cons p st ih =>
      refine ih _ _ fun k hk => ?_
      simp only [Function.update_apply, hm k hk]

/-- An instruction changes its output base only. -/
theorem runWhole_of_base_ne {i : BhInstruction} {l : Loc} (h : i.operand0.base ≠ some l.1) (m : Mem V) :
    runWhole I i m l = m l := by
  apply applyStores_of_notMem
  intro p hp he
  exact h (he ▸ wholeStores_base I hp)

end Whole
end Bohrium
