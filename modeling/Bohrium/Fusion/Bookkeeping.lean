import Bohrium.Fusion.Savings

/-! # What a kernel knows about its arrays

`add_instr` sorts the arrays of a kernel into temporaries, parameters and the arrays it frees, discards and
synchronises. For a list of instructions that uses no array after its `BH_DISCARD`, what ends up where is
said here by the instructions alone. -/
namespace Bohrium
open Engine
set_option autoImplicit false

/-! ## Instruction lists -/

/-- Some instruction of the list, with those before it, satisfies `P`. -/
def Occurs (is : List BhInstruction) (P : List BhInstruction → BhInstruction → Prop) : Prop :=
  ∃ before i after, is = before ++ i :: after ∧ P before i

/-- An operation touches the view, up to simplification. -/
def Accessed (is : List BhInstruction) (s : BhView) : Prop :=
  ∃ j ∈ is, j.isSystem = false ∧ ∃ u ∈ j.operands, bhIsConstant u = false ∧ bhViewSimplify u = s

/-- The array is read through a view not accessed before. -/
def FreshRead (is : List BhInstruction) (b : BhBase) : Prop :=
  Occurs is fun before i => i.isSystem = false ∧ ∃ v ∈ i.inputs, v.base = some b ∧ ¬ Accessed before (bhViewSimplify v)

def DiscardedUnsynced (is : List BhInstruction) (b : BhBase) : Prop :=
  Occurs is fun before d => d.opcode = .discard ∧ d.operand0.base = some b ∧ ¬ Synced before (some b)

def Written (is : List BhInstruction) (b : BhBase) : Prop := ∃ v, WrittenView is v ∧ v.base = some b

variable {is : List BhInstruction} {i : BhInstruction} {b : BhBase}

theorem occurs_concat {P : List BhInstruction → BhInstruction → Prop} :
    Occurs (is ++ [i]) P ↔ Occurs is P ∨ P is i := by
  constructor
  · rintro ⟨before, j, after, heq, hP⟩
    rcases List.eq_nil_or_concat after with rfl | ⟨after', k, rfl⟩
    · obtain ⟨rfl, hj⟩ := List.append_inj' heq rfl
      rw [List.singleton_inj] at hj
      rw [hj]
      exact Or.inr hP
    · rw [List.concat_eq_append, ← List.cons_append, ← List.append_assoc] at heq
      obtain ⟨rfl, _⟩ := List.append_inj' heq rfl
      exact Or.inl ⟨before, j, after', rfl, hP⟩
  · rintro (⟨before, j, after, rfl, hP⟩ | hP)
    · exact ⟨before, j, after ++ [i], by simp, hP⟩
    · exact ⟨is, i, [], rfl, hP⟩

theorem not_occurs_nil {P : List BhInstruction → BhInstruction → Prop} : ¬ Occurs [] P := by
  rintro ⟨before, j, after, heq, _⟩
  simp at heq

theorem DiscardedUnsynced.discarded (h : DiscardedUnsynced is b) : Discarded is (some b) := by
  obtain ⟨before, d, after, rfl, hop, hbase, _⟩ := h
  exact ⟨d, by simp, hop, hbase⟩

/-! ## The tally and the instructions -/

namespace Tally

theorem mem_seen_reads {t : Tally} {s : BhView} (vs : List BhView) : s ∈ (vs.foldl read t).seen ↔
    s ∈ t.seen ∨ ∃ u ∈ vs, bhIsConstant u = false ∧ bhViewSimplify u = s := by
  induction vs generalizing t with
  | nil => simp
  | cons u vs ih =>
    rw [List.foldl_cons, ih]
    simp only [List.mem_cons, or_and_right, exists_or, exists_eq_left]
    rw [← or_assoc]
    apply or_congr_left
    unfold read
    split_ifs with h
    · constructor
      · exact Or.inl
      · rintro (hs | ⟨hc, rfl⟩)
        · exact hs
        · exact h.resolve_left (by simp [hc])
    · rw [not_or, Bool.not_eq_true] at h
      simp only [List.mem_append, List.mem_singleton, h.1, true_and]
      exact or_congr_right eq_comm

/-- Reads of an array make it an input when one of the views is new. -/
theorem exists_inputs_reads {t : Tally} (vs : List BhView) : (∃ v ∈ (vs.foldl read t).inputs, v.base = some b) ↔
    (∃ v ∈ t.inputs, v.base = some b) ∨ ∃ v ∈ vs, v.base = some b ∧ bhViewSimplify v ∉ t.seen := by
  induction vs generalizing t with
  | nil => simp
  | cons u vs ih =>
    rw [List.foldl_cons, ih]
    simp only [List.mem_cons, or_and_right, exists_or, exists_eq_left]
    unfold read
    split_ifs with h
    · have hu : ¬ (u.base = some b ∧ bhViewSimplify u ∉ t.seen) := by
        rintro ⟨hb, hnew⟩
        exact h.elim (fun hc => by rw [not_bhIsConstant hb] at hc; cases hc) hnew
      simp only [hu, false_or]
    · rw [not_or] at h
      simp only [List.mem_append, List.mem_singleton, or_and_right, exists_or, exists_eq_left, h.2, not_false_eq_true,
        and_true, or_assoc]
      apply or_congr_right
      constructor
      · rintro (hu | ⟨v, hv, hb, hnew⟩)
        · exact Or.inl hu
        · exact Or.inr ⟨v, hv, hb, fun hs => hnew (Or.inl hs)⟩
      · rintro (hu | ⟨v, hv, hb, hnew⟩)
        · exact Or.inl hu
        · by_cases hsame : bhViewSimplify v = bhViewSimplify u
          · refine Or.inl ?_
            rw [← base_bhViewSimplify u, ← hsame, base_bhViewSimplify, hb]
          · exact Or.inr ⟨v, hv, hb, fun hs => hs.elim hnew hsame⟩

theorem seen_system {t : Tally} (hs : i.isSystem = true) : (t.note i).seen = t.seen := by
  rcases kinds i with hs' | hop | hop | hop
  · rw [hs] at hs'
    cases hs'
  · rw [note_sync hop]
  · rw [note_discard hop, discard]
    split_ifs <;> rfl
  · rw [note_idle hop]

theorem mem_seen_after {s : BhView} (hbase : s.base ≠ none) : s ∈ (({} : Tally).after is).seen ↔ Accessed is s := by
  induction is using List.reverseRecOn with
  | nil => simp [after, Accessed]
  | append_singleton is i ih =>
    have hstep : Accessed (is ++ [i]) s ↔ Accessed is s ∨
        i.isSystem = false ∧ ∃ u ∈ i.operands, bhIsConstant u = false ∧ bhViewSimplify u = s := by
      simp only [Accessed, List.mem_append, List.mem_singleton, or_and_right, exists_or, exists_eq_left]
    rw [after_concat, hstep, ← ih]
    cases hs : i.isSystem with
    | true =>
      rw [seen_system hs]
      simp
    | false =>
      rw [note_operation hs]
      show s ∈ setInsert (bhViewSimplify i.operand0) (i.inputs.foldl read _).seen ↔ _
      rw [mem_setInsert, mem_seen_reads, BhInstruction.operands_eq_cons (bhOperands_ne_zero_of_not_system hs)]
      simp only [List.mem_cons, or_and_right, exists_or, exists_eq_left, true_and]
      have hout : bhIsConstant i.operand0 = false ∧ bhViewSimplify i.operand0 = s ↔ s = bhViewSimplify i.operand0 := by
        constructor
        · exact fun h => h.2.symm
        · rintro rfl
          refine ⟨?_, rfl⟩
          rw [base_bhViewSimplify] at hbase
          cases hb : i.operand0.base with
          | none => exact absurd hb hbase
          | some _ => exact not_bhIsConstant hb
      rw [hout, or_left_comm]

theorem exists_inputs_after : (∃ v ∈ (({} : Tally).after is).inputs, v.base = some b) ↔ FreshRead is b := by
  induction is using List.reverseRecOn with
  | nil =>
    refine iff_of_false ?_ not_occurs_nil
    rintro ⟨v, hv, _⟩
    cases hv
  | append_singleton is i ih =>
    rw [after_concat, FreshRead, occurs_concat, ← FreshRead, ← ih]
    cases hs : i.isSystem with
    | true =>
      rw [inputs_system hs]
      simp
    | false =>
      rw [note_operation hs]
      show (∃ v ∈ (i.inputs.foldl read _).inputs, v.base = some b) ↔ _
      rw [exists_inputs_reads]
      apply or_congr_right
      simp only [true_and]
      refine exists_congr fun v => and_congr_right fun _ => and_congr_right fun hb => ?_
      rw [mem_seen_after (by rw [base_bhViewSimplify, hb]; exact Option.some_ne_none b)]

end Tally

/-! ## The books -/

/-- The sets of the kernel, against the instructions added to it. -/
structure Bookkept (is : List BhInstruction) (k : BhIrKernel) : Prop where
  temps : ∀ b, some b ∈ k.temps ↔ DiscardedUnsynced is b ∧ Written is b ∧ ¬ FreshRead is b
  frees : ∀ b ∈ k.temps, b ∉ k.frees
  discards : ∀ b, some b ∈ k.discards → Discarded is (some b) ∧ some b ∉ k.temps
  parameters : ∀ b, some b ∈ k.temps → some b ∉ k.parameters.map.map Prod.fst
  inputs : ∀ p ∈ k.inputMap, p.1 ∈ k.parameters.map.map Prod.fst
  outputs : ∀ p ∈ k.outputMap, p.1 ∈ k.parameters.map.map Prod.fst

/-- What the inputs `vs` of an operation change in the books. -/
structure Filed (k k' : BhIrKernel) (vs : List BhView) : Prop where
  temps : k'.temps = k.temps
  frees : k'.frees = k.frees
  discards : k'.discards = k.discards
  outputMap : k'.outputMap = k.outputMap
  keep : ∀ x ∈ k.parameters.map.map Prod.fst, x ∈ k'.parameters.map.map Prod.fst
  new : ∀ x ∈ k'.parameters.map.map Prod.fst, x ∈ k.parameters.map.map Prod.fst ∨ ∃ v ∈ vs, v.base = x
  inputs : (∀ p ∈ k.inputMap, p.1 ∈ k.parameters.map.map Prod.fst) →
    ∀ p ∈ k'.inputMap, p.1 ∈ k'.parameters.map.map Prod.fst

section File
variable {k k' k'' : BhIrKernel} {vs ws : List BhView}

theorem Filed.trans (h : Filed k k' vs) (h' : Filed k' k'' ws) : Filed k k'' (vs ++ ws) where
  temps := h'.temps.trans h.temps
  frees := h'.frees.trans h.frees
  discards := h'.discards.trans h.discards
  outputMap := h'.outputMap.trans h.outputMap
  keep := fun x hx => h'.keep x (h.keep x hx)
  new := fun x hx => by
    rcases h'.new x hx with hx | ⟨v, hv, heq⟩
    · rcases h.new x hx with hx | ⟨v, hv, heq⟩
      · exact Or.inl hx
      · exact Or.inr ⟨v, List.mem_append_left _ hv, heq⟩
    · exact Or.inr ⟨v, List.mem_append_right _ hv, heq⟩
  inputs := fun hin => h'.inputs (h.inputs hin)

/-- The kernel with the same books. -/
theorem filed_same (hsame : k'.temps = k.temps ∧ k'.frees = k.frees ∧ k'.discards = k.discards ∧
    k'.outputMap = k.outputMap ∧ k'.parameters = k.parameters ∧ k'.inputMap = k.inputMap) : Filed k k' vs := by
  obtain ⟨ht, hf, hd, ho, hp, hi⟩ := hsame
  refine ⟨ht, hf, hd, ho, fun x hx => hp ▸ hx, fun x hx => Or.inl (hp ▸ hx), fun hin p hmem => ?_⟩
  rw [hp]
  rw [hi] at hmem
  exact hin p hmem

theorem filed_addInput (k : BhIrKernel) (sweep : Bool) (c : BhConstant) (v : BhView) :
    Filed k (k.addInput sweep c v) [v] := by
  have hnew : ∀ k' : BhIrKernel, k'.temps = k.temps → k'.frees = k.frees → k'.discards = k.discards →
      k'.outputMap = k.outputMap → k'.parameters = (k.parameters.insert v.base).1 →
      k'.inputMap = k.inputMap ++ [(v.base, v)] → Filed k k' [v] := by
    intro k' ht hf hd ho hp hi
    have hkeys : ∀ x, x ∈ k'.parameters.map.map Prod.fst ↔ x = v.base ∨ x ∈ k.parameters.map.map Prod.fst := by
      intro x
      rw [hp, keys_insert, mem_setInsert]
    refine ⟨ht, hf, hd, ho, fun x hx => (hkeys x).mpr (Or.inr hx), fun x hx => ?_, fun hin p hmem => ?_⟩
    · rcases (hkeys x).mp hx with rfl | hx
      · exact Or.inr ⟨v, List.mem_cons_self, rfl⟩
      · exact Or.inl hx
    · rw [hi] at hmem
      rcases List.mem_append.mp hmem with hmem | hmem
      · exact (hkeys _).mpr (Or.inr (hin p hmem))
      · rw [List.mem_singleton.mp hmem]
        exact (hkeys _).mpr (Or.inl rfl)
  unfold BhIrKernel.addInput
  dsimp only
  split_ifs
  · exact filed_same ⟨rfl, rfl, rfl, rfl, rfl, rfl⟩
  · exact filed_same ⟨rfl, rfl, rfl, rfl, rfl, rfl⟩
  · exact hnew _ rfl rfl rfl rfl rfl rfl
  · exact hnew _ rfl rfl rfl rfl rfl rfl
  · exact filed_same ⟨rfl, rfl, rfl, rfl, rfl, rfl⟩
  · exact filed_same ⟨rfl, rfl, rfl, rfl, rfl, rfl⟩

theorem filed_foldl (k : BhIrKernel) (sweep : Bool) (c : BhConstant) (vs : List BhView) :
    Filed k (vs.foldl (BhIrKernel.addInput sweep c) k) vs := by
  induction vs generalizing k with
  | nil => exact filed_same ⟨rfl, rfl, rfl, rfl, rfl, rfl⟩
  | cons v vs ih => exact (filed_addInput k sweep c v).trans (ih _)

end File

/-! ## One instruction -/

variable {k : BhIrKernel}

/-- What was discarded is not touched again. -/
theorem untouched_of_discarded (hused : NoUseAfterDiscard (is ++ [i])) (hd : Discarded is (some b)) :
    ∀ u ∈ i.operands, u.base ≠ some b := by
  obtain ⟨d, hd, hop, hbase⟩ := hd
  exact (List.pairwise_append.mp hused).2.2 d hd i List.mem_cons_self hop b hbase

/-- Only a discard makes temporaries. -/
theorem temporary_concat (hused : NoUseAfterDiscard (is ++ [i])) (hop : i.opcode ≠ .discard) :
    (DiscardedUnsynced (is ++ [i]) b ∧ Written (is ++ [i]) b ∧ ¬ FreshRead (is ++ [i]) b) ↔
      DiscardedUnsynced is b ∧ Written is b ∧ ¬ FreshRead is b := by
  have hd : DiscardedUnsynced (is ++ [i]) b ↔ DiscardedUnsynced is b := by
    rw [DiscardedUnsynced, occurs_concat, ← DiscardedUnsynced]
    simp only [hop, false_and, or_false]
  rw [hd]
  apply and_congr_right
  intro hdisc
  have huntouched := untouched_of_discarded hused hdisc.discarded
  have hw : Written (is ++ [i]) b ↔ Written is b := by
    simp only [Written, writtenView_append, writtenView_singleton, or_and_right, exists_or, or_iff_left_iff_imp]
    rintro ⟨v, ⟨hs, rfl⟩, hb⟩
    exact absurd hb (huntouched _ (BhInstruction.operand0_mem (bhOperands_ne_zero_of_not_system hs)))
  have hr : FreshRead (is ++ [i]) b ↔ FreshRead is b := by
    rw [FreshRead, occurs_concat, ← FreshRead, or_iff_left_iff_imp]
    rintro ⟨_, v, hv, hb, _⟩
    exact absurd hb (huntouched v (BhInstruction.mem_operands_of_mem_inputs hv))
  rw [hw, hr]

theorem discarded_concat {x : Option BhBase} (h : Discarded is x) : Discarded (is ++ [i]) x :=
  discarded_append.mpr (Or.inl h)

/-- An operation files its operands under the parameters. -/
theorem Bookkept.operation (h : Bookkept is k) (hs : i.isSystem = false) (hused : NoUseAfterDiscard (is ++ [i]))
    (sweep : Bool) : Bookkept (is ++ [i])
      ((i.inputs.foldl (BhIrKernel.addInput sweep i.constant) k).addOutput i.opcode i.operand0) := by
  have hop : i.opcode ≠ .discard := by
    intro hop
    rw [BhInstruction.isSystem, hop] at hs
    cases hs
  have hfiled := filed_foldl k sweep i.constant i.inputs
  obtain ⟨k₁, hk₁⟩ : ∃ k₁, k₁ = i.inputs.foldl (BhIrKernel.addInput sweep i.constant) k := ⟨_, rfl⟩
  rw [← hk₁] at hfiled ⊢
  have hkeys : ∀ x, x ∈ (k₁.addOutput i.opcode i.operand0).parameters.map.map Prod.fst ↔
      x = i.operand0.base ∨ x ∈ k₁.parameters.map.map Prod.fst := by
    intro x
    show x ∈ (k₁.parameters.insert i.operand0.base).1.map.map Prod.fst ↔ _
    rw [keys_insert, mem_setInsert]
  refine ⟨fun b => ?_, fun b hb => ?_, fun b hb => ?_, fun b hb hp => ?_, fun p hp => ?_, fun p hp => ?_⟩
  · rw [temporary_concat hused hop, ← h.temps b]
    show some b ∈ k₁.temps ↔ _
    rw [hfiled.temps]
  · show b ∉ k₁.frees
    rw [hfiled.frees]
    exact h.frees b (hfiled.temps ▸ hb)
  · obtain ⟨hd, ht⟩ := h.discards b (hfiled.discards ▸ hb)
    refine ⟨discarded_concat hd, ?_⟩
    show some b ∉ k₁.temps
    rwa [hfiled.temps]
  · have ht : some b ∈ k.temps := hfiled.temps ▸ hb
    have huntouched := untouched_of_discarded hused ((h.temps b).mp ht).1.discarded
    rcases (hkeys _).mp hp with heq | hp
    · exact huntouched _ (BhInstruction.operand0_mem (bhOperands_ne_zero_of_not_system hs)) heq.symm
    · rcases hfiled.new _ hp with hp | ⟨v, hv, heq⟩
      · exact h.parameters b ht hp
      · exact huntouched v (BhInstruction.mem_operands_of_mem_inputs hv) heq
  · exact (hkeys _).mpr (Or.inr (hfiled.inputs h.inputs p hp))
  · rcases List.mem_append.mp hp with hp | hp
    · exact (hkeys _).mpr (Or.inr (hfiled.keep _ (h.outputs p (hfiled.outputMap ▸ hp))))
    · rw [List.mem_singleton.mp hp]
      exact (hkeys _).mpr (Or.inl rfl)

theorem mem_keys_erase {s : Seqset (Option BhBase)} {x y : Option BhBase} :
    x ∈ (s.erase y).map.map Prod.fst ↔ x ∈ s.map.map Prod.fst ∧ x ≠ y := by
  simp only [Seqset.erase, List.mem_map, List.mem_filter, decide_eq_true_eq]
  constructor
  · rintro ⟨p, ⟨hp, hne⟩, rfl⟩
    exact ⟨⟨p, hp, rfl⟩, hne⟩
  · rintro ⟨⟨p, hp, rfl⟩, hne⟩
    exact ⟨p, ⟨hp, hne⟩, rfl⟩

theorem mem_setErase {x y : Option BhBase} {s : List (Option BhBase)} : x ∈ setErase y s ↔ x ∈ s ∧ x ≠ y := by
  simp [setErase]

section Discard
variable (ht : Tallied (({} : Tally).after is) k)
include ht

theorem mem_syncs_iff {x : Option BhBase} : x ∈ k.syncs ↔ Synced is x := by
  rw [ht.syncs, Tally.mem_syncs_after]
  simp

theorem exists_inputMap_iff : (∃ p ∈ k.inputMap, p.1 = some b) ↔ FreshRead is b := by
  rw [← Tally.exists_inputs_after, ht.inputMap]
  simp

theorem exists_outputMap_iff (hused : NoUseAfterDiscard is) : (∃ p ∈ k.outputMap, p.1 = some b) ↔
    Written is b ∧ ¬ (Discarded is (some b) ∧ ¬ Synced is (some b)) := by
  have hmem : ∀ v : BhView, v.base = some b → (v ∈ (({} : Tally).after is).outputs ↔
      WrittenView is v ∧ ¬ (Discarded is (some b) ∧ ¬ Synced is (some b))) := by
    intro v hb
    rw [Tally.mem_outputs_after (by rw [hb]; exact Option.some_ne_none b) hused, hb]
    simp
  constructor
  · rintro ⟨p, hp, hb⟩
    rw [ht.based p hp] at hb
    obtain ⟨hw, hkeep⟩ := (hmem p.2 hb).mp (ht.mapped p hp)
    exact ⟨⟨p.2, hw, hb⟩, hkeep⟩
  · rintro ⟨⟨v, hw, hb⟩, hkeep⟩
    exact ⟨_, ht.written v ((hmem v hb).mpr ⟨hw, hkeep⟩), hb⟩

/-- What a discard makes a temporary. -/
theorem mem_temps_addDiscard (h : Bookkept is k) (hop : i.opcode = .discard) (hused : NoUseAfterDiscard (is ++ [i])) :
    some b ∈ (k.addDiscard i.operand0.base).temps ↔
      DiscardedUnsynced (is ++ [i]) b ∧ Written (is ++ [i]) b ∧ ¬ FreshRead (is ++ [i]) b := by
  have hw : Written (is ++ [i]) b ↔ Written is b := by
    simp [Written, writtenView_append, writtenView_singleton, BhInstruction.isSystem, hop, bhOpcodeIsSystem]
  have hr : FreshRead (is ++ [i]) b ↔ FreshRead is b := by
    rw [FreshRead, occurs_concat, ← FreshRead]
    simp [BhInstruction.isSystem, hop, bhOpcodeIsSystem]
  rw [DiscardedUnsynced, occurs_concat, ← DiscardedUnsynced, hw, hr]
  by_cases hbase : i.operand0.base = some b
  · have hnot : ¬ Discarded is (some b) := fun hd =>
      untouched_of_discarded hused hd _ (BhInstruction.operand0_mem (by rw [hop]; decide)) hbase
    have hold : some b ∉ k.temps := fun hb => hnot ((h.temps b).mp hb).1.discarded
    have hout := @exists_outputMap_iff is b k ht (List.pairwise_append.mp hused).1
    simp only [hnot, false_and, not_false_eq_true, and_true] at hout
    have hwritten : k.outputMap.filter (·.1 = some b) ≠ [] ↔ Written is b := by
      rw [← hout, Ne, List.filter_eq_nil_iff]
      simp
    have hin : (∀ p ∈ k.inputMap, p.1 ≠ some b) ↔ ¬ FreshRead is b := by
      rw [← exists_inputMap_iff ht, not_exists]
      exact forall_congr' fun p => not_and.symm
    have hdisc : DiscardedUnsynced is b ↔ False := iff_of_false (fun hd => hnot hd.discarded) id
    simp only [hbase, hop, hdisc, false_or, true_and]
    unfold BhIrKernel.addDiscard
    split_ifs with hsync
    · simp [hold, (mem_syncs_iff ht).mp hsync]
    · dsimp only
      rw [mem_syncs_iff ht] at hsync
      split_ifs with htemp
      · rw [hwritten, hin] at htemp
        exact iff_of_true (mem_setInsert.mpr (Or.inl rfl)) ⟨hsync, htemp⟩
      · rw [hwritten, hin] at htemp
        exact iff_of_false hold fun hb => htemp hb.2
  · have hsame : some b ∈ (k.addDiscard i.operand0.base).temps ↔ some b ∈ k.temps := by
      unfold BhIrKernel.addDiscard
      dsimp only
      split_ifs
      · rfl
      · exact mem_setInsert.trans (or_iff_right (Ne.symm hbase))
      · rfl
    rw [hsame, h.temps b]
    simp [hbase]

theorem Bookkept.discard (h : Bookkept is k) (hop : i.opcode = .discard) (hused : NoUseAfterDiscard (is ++ [i])) :
    Bookkept (is ++ [i]) (k.addDiscard i.operand0.base) := by
  have htemps : ∀ b, some b ∈ (k.addDiscard i.operand0.base).temps ↔ _ :=
    fun b => mem_temps_addDiscard ht h hop hused
  have hlast : Discarded (is ++ [i]) i.operand0.base := ⟨i, by simp, hop, rfl⟩
  have hfirst : ∀ b, i.operand0.base = some b → ¬ Discarded is (some b) := fun b hbase hd =>
    untouched_of_discarded hused hd _ (BhInstruction.operand0_mem (by rw [hop]; decide)) hbase
  have hkept : ∀ b, some b ∈ k.discards ∨ i.operand0.base = some b → some b ∉ k.temps := by
    rintro b (hb | hb) ht'
    · exact (h.discards b hb).2 ht'
    · exact hfirst b hb ((h.temps b).mp ht').1.discarded
  have hdiscards : ∀ b, some b ∈ setInsert i.operand0.base k.discards →
      Discarded (is ++ [i]) (some b) ∧ some b ∉ k.temps := by
    intro b hb
    rcases mem_setInsert.mp hb with hb | hb
    · exact ⟨hb ▸ hlast, hkept b (Or.inr hb.symm)⟩
    · exact ⟨discarded_concat (h.discards b hb).1, hkept b (Or.inl hb)⟩
  unfold BhIrKernel.addDiscard at htemps ⊢
  dsimp only at htemps ⊢
  split_ifs at htemps ⊢ with hsync htemp
  · exact ⟨htemps, h.frees, hdiscards, h.parameters, h.inputs, h.outputs⟩
  · refine ⟨htemps, fun b hb hf => ?_, fun b hb => ?_, fun b hb hp => ?_, fun p hp => ?_, fun p hp => ?_⟩
    · rw [mem_setErase] at hf
      rcases mem_setInsert.mp hb with hb | hb
      · exact hf.2 hb
      · exact h.frees b hb hf.1
    · refine ⟨discarded_concat (h.discards b hb).1, fun hb' => ?_⟩
      rcases mem_setInsert.mp hb' with hb' | hb'
      · exact hfirst b hb'.symm (h.discards b hb).1
      · exact (h.discards b hb).2 hb'
    · rw [mem_keys_erase] at hp
      rcases mem_setInsert.mp hb with hb | hb
      · exact hp.2 hb
      · exact h.parameters b hb hp.1
    · exact mem_keys_erase.mpr ⟨h.inputs p hp, htemp.2 p hp⟩
    · obtain ⟨hp, hne⟩ := List.mem_filter.mp hp
      exact mem_keys_erase.mpr ⟨h.outputs p hp, of_decide_eq_true hne⟩
  · exact ⟨htemps, h.frees, hdiscards, h.parameters, h.inputs, fun p hp => h.outputs p (List.mem_of_mem_filter hp)⟩

theorem Bookkept.record (h : Bookkept is k) (hused : NoUseAfterDiscard (is ++ [i])) :
    Bookkept (is ++ [i]) (k.record i) := by
  have hsame : i.opcode ≠ .discard → ∀ k' : BhIrKernel, k'.temps = k.temps → (∀ b ∈ k'.temps, b ∉ k'.frees) →
      k'.discards = k.discards → k'.parameters = k.parameters → k'.inputMap = k.inputMap →
      k'.outputMap = k.outputMap → Bookkept (is ++ [i]) k' := by
    intro hop k' htemps hfrees hdiscards hparams hin hout
    refine ⟨fun b => ?_, hfrees, fun b hb => ?_, fun b hb => ?_, ?_, ?_⟩
    · rw [temporary_concat hused hop, htemps]
      exact h.temps b
    · rw [htemps]
      exact ⟨discarded_concat (h.discards b (hdiscards ▸ hb)).1, (h.discards b (hdiscards ▸ hb)).2⟩
    · rw [hparams]
      exact h.parameters b (htemps ▸ hb)
    · rw [hin, hparams]
      exact h.inputs
    · rw [hout, hparams]
      exact h.outputs
  rcases Tally.kinds i with hs | hop | hop | hop
  · rw [BhIrKernel.record_operation k hs]
    have hstep := h.operation hs hused (bhOpcodeIsSweep i.opcode)
    dsimp only
    split_ifs
    · exact { hstep with }
    · exact hstep
  · rw [BhIrKernel.record, hop]
    exact hsame (by rw [hop]; decide) _ rfl h.frees rfl rfl rfl rfl
  · rw [BhIrKernel.record, hop]
    exact h.discard ht hop hused
  · rcases hop with hop | hop
    · rw [BhIrKernel.record, hop]
      exact hsame (by rw [hop]; decide) _ rfl h.frees rfl rfl rfl rfl
    · rw [BhIrKernel.record, hop]
      dsimp only
      split_ifs with hmem
      · exact hsame (by rw [hop]; decide) _ rfl h.frees rfl rfl rfl rfl
      · refine hsame (by rw [hop]; decide) _ rfl (fun b hb hf => ?_) rfl rfl rfl rfl
        rcases mem_setInsert.mp hf with rfl | hf
        · exact hmem hb
        · exact h.frees b hb hf

end Discard

/-! ## Any prefix of a list -/

theorem bookkept_kernelOf {l : List BhInstruction} {idxs : List ℕ} (hused : NoUseAfterDiscard (kernelInstrs l idxs)) :
    Bookkept (kernelInstrs l idxs) (kernelOf l idxs) := by
  induction idxs using List.reverseRecOn with
  | nil =>
    refine ⟨fun b => ?_, nofun, nofun, nofun, nofun, nofun⟩
    exact iff_of_false nofun fun h => not_occurs_nil h.1
  | append_singleton idxs n ih =>
    have hconcat : kernelInstrs l (idxs ++ [n]) = kernelInstrs l idxs ++ [instrAt l n] := List.map_append
    have hkernel : kernelOf l (idxs ++ [n]) = (kernelOf l idxs).addInstr l n := List.foldl_append
    rw [hconcat] at hused ⊢
    rw [hkernel]
    have ht : Tallied (({} : Tally).after (kernelInstrs l idxs)) (kernelOf l idxs) := tallied_empty.foldl l idxs
    exact { (ih (List.pairwise_append.mp hused).1).record ht hused with }

/-- A read of an array that is never read afresh goes through a view written before. -/
theorem aligned_of_not_freshRead (hfresh : ¬ FreshRead is b) (m : ℕ) : ∀ before i after, is = before ++ i :: after →
    before.length = m → i.isSystem = false → ∀ v ∈ i.inputs, v.base = some b →
      ∃ u, WrittenView before u ∧ u.base = some b ∧ bhViewSimplify u = bhViewSimplify v := by
  induction m using Nat.strong_induction_on with
  | _ m ih =>
    intro before i after heq hlen hs v hv hb
    have haccess : Accessed before (bhViewSimplify v) := by
      by_contra hno
      exact hfresh ⟨before, i, after, heq, hs, v, hv, hb, hno⟩
    obtain ⟨j, hj, hsj, u, hu, _, hsame⟩ := haccess
    have hub : u.base = some b := by rw [← base_bhViewSimplify u, hsame, base_bhViewSimplify, hb]
    rw [BhInstruction.operands_eq_cons (bhOperands_ne_zero_of_not_system hsj)] at hu
    rcases List.mem_cons.mp hu with rfl | hu
    · exact ⟨_, ⟨j, hj, hsj, rfl⟩, hub, hsame⟩
    · -- an earlier read through the same view
      obtain ⟨before', after', rfl⟩ := List.append_of_mem hj
      obtain ⟨w, ⟨j', hj', hw⟩, hwb, hsame'⟩ := ih before'.length (by rw [← hlen]; simp) before' j
        (after' ++ i :: after) (by rw [heq]; simp) rfl hsj u hu hub
      exact ⟨w, ⟨j', List.mem_append_left _ hj', hw⟩, hwb, hsame'.trans hsame⟩

/-- What the sets of a kernel say of the instructions `is` added to it. -/
structure Consistent (is : List BhInstruction) (k : BhIrKernel) : Prop where
  temps : ∀ b, some b ∈ k.temps ↔ DiscardedUnsynced is b ∧ Written is b ∧ ¬ FreshRead is b
  reads : ∀ b, some b ∈ k.temps → ∀ before i after, is = before ++ i :: after → i.isSystem = false →
    ∀ v ∈ i.inputs, v.base = some b → ∃ u, WrittenView before u ∧ u.base = some b ∧ bhViewAligned v u = true
  apart : ∀ b, some b ∈ k.temps → some b ∉ k.frees ∧ some b ∉ k.discards ∧ some b ∉ k.syncs ∧
    some b ∉ k.parameters.map.map Prod.fst ∧ (∀ p ∈ k.inputMap, p.1 ≠ some b) ∧ ∀ p ∈ k.outputMap, p.1 ≠ some b
  parameters : ∀ v, v ∈ k.inputSet ∨ v ∈ k.outputSet → v.base ∈ k.parameters.map.map Prod.fst

theorem Bookkept.consistent (h : Bookkept is k) (ht : Tallied (({} : Tally).after is) k) (hused : NoUseAfterDiscard is) :
    Consistent is k := by
  refine ⟨h.temps, fun b hb before i after heq hs v hv hvb => ?_, fun b hb => ?_, fun v hv => ?_⟩
  · obtain ⟨u, hw, hub, hsame⟩ :=
      aligned_of_not_freshRead ((h.temps b).mp hb).2.2 before.length before i after heq rfl hs v hv hvb
    refine ⟨u, hw, hub, ?_⟩
    simp [bhViewAligned, hsame]
  · obtain ⟨hdisc, hw, hfresh⟩ := (h.temps b).mp hb
    have hsync : ¬ Synced is (some b) := by
      obtain ⟨before, d, after, rfl, hop, hbase, hno⟩ := hdisc
      rintro ⟨j, hj, hjop, hjb⟩
      rcases List.mem_append.mp hj with hj | hj
      · exact hno ⟨j, hj, hjop, hjb⟩
      · rcases List.mem_cons.mp hj with rfl | hj
        · rw [hop] at hjop
          cases hjop
        · have hafter := (List.pairwise_cons.mp (List.pairwise_append.mp hused).2.1).1 j hj
          exact hafter hop b hbase _ (BhInstruction.operand0_mem (by rw [hjop]; decide)) hjb
    refine ⟨h.frees _ hb, fun hd => (h.discards b hd).2 hb, ?_, h.parameters b hb, fun p hp heq => ?_, fun p hp heq => ?_⟩
    · rwa [mem_syncs_iff ht]
    · exact hfresh ((exists_inputMap_iff ht).mp ⟨p, hp, heq⟩)
    · exact ((exists_outputMap_iff ht hused).mp ⟨p, hp, heq⟩).2 ⟨hdisc.discarded, hsync⟩
  · rcases hv with hv | hv
    · refine h.inputs (v.base, v) ?_
      rw [ht.inputMap, ← ht.inputs]
      exact List.mem_map_of_mem hv
    · rw [ht.outputs] at hv
      exact h.outputs _ (ht.written v hv)

/-- The first `n` instructions of a list that uses no array after its `BH_DISCARD`, added to a fresh
kernel. -/
theorem kernel_consistent {l : List BhInstruction} (hused : NoUseAfterDiscard l) {n : ℕ} (hn : n ≤ l.length) :
    Consistent (l.take n) (kernelOf l (List.range n)) := by
  have htake : kernelInstrs l (List.range n) = l.take n := by
    apply List.ext_getElem
    · simp [kernelInstrs, hn]
    · intro m h₁ h₂
      simp only [kernelInstrs, List.length_map, List.length_range] at h₁
      simp [kernelInstrs, instrAt, List.getElem?_eq_getElem (show m < l.length by omega)]
  have hprefix : NoUseAfterDiscard (l.take n) := List.Pairwise.sublist (List.take_sublist n l) hused
  rw [← htake] at hprefix ⊢
  exact (bookkept_kernelOf hprefix).consistent (tallied_empty.foldl l (List.range n)) hprefix

/-- `handedOver` whole: its first array is a temporary. -/
theorem kernel_consistent_handedOver :
    (kernelOf handedOver (List.range 3)).temps = [some ⟨0, .int64, 4⟩] ∧
      Consistent (handedOver.take 3) (kernelOf handedOver (List.range 3)) :=
  ⟨by decide, kernel_consistent (by decide) (by decide)⟩

end Bohrium
