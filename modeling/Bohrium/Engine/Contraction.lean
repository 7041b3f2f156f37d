import Bohrium.Core.Kernel
import Bohrium.Engine.SymbolTable
import Bohrium.Fusion.SameShape

/-! # Array contraction

`Engine::execute_block` (`ve/cpu/engine.cpp`) turns the operands of a kernel's temporaries into variables
of the generated loop, one for each entry of the symbol table (`turn_contractable`,
`Walker::declare_operands`). What is a temporary is decided by `bh_ir_kernel::add_instr`, which compares
simplified views; a variable belongs to a view as it is. The two differ in the stride of a dimension of
length one. -/
namespace Bohrium.Engine
open Strided Reorder
set_option autoImplicit false

/-! ## The loop with variables -/

/-- Memory, and the variables of the generated function, declared before its loop. -/
structure Frame (V : Type) where
  mem : Mem V
  vars : ℕ → V

section Loop
variable {V : Type} (I : Interp V) (temps : List (Option BhBase)) (table : List Operand)

def loadOperand (c : BhConstant) (v : BhView) (idx : List ℕ) (s : Frame V) : V :=
  if v.base ∈ temps then s.vars (symbolOf table v) else load I c v idx s.mem

def storeOperand (v : BhView) (idx : List ℕ) (x : V) (s : Frame V) : Frame V :=
  if v.base ∈ temps then { s with vars := Function.update s.vars (symbolOf table v) x }
  else { s with mem := store v idx x s.mem }

/-- An elementwise operation at one index. -/
def stepContracted (i : BhInstruction) (idx : List ℕ) (s : Frame V) : Frame V :=
  storeOperand temps table i.operand0 idx
    (I.ewise i.opcode i.types (i.inputs.map fun v => loadOperand I temps table i.constant v idx s)) s

/-- The fused loop nest with variables for the temporaries. -/
def runContracted (l : List BhInstruction) (s : Frame V) : Frame V :=
  match l.filter (fun i => !i.isSystem) with
  | [] => s
  | i :: rest =>
    (indexSpace i).foldl (fun s idx => (i :: rest).foldl (fun s j => stepContracted I temps table j idx s) s) s

end Loop

/-- The kernel of the instructions at `idxs`. -/
def kernelOf (l : List BhInstruction) (idxs : List ℕ) : BhIrKernel := idxs.foldl (BhIrKernel.addInstr l) {}

def kernelInstrs (l : List BhInstruction) (idxs : List ℕ) : List BhInstruction := idxs.map (instrAt l)

/-! ## What the kernel notes -/

/-- The fields that decide what is a temporary, after the instructions `pre`. -/
structure Noted (pre : List BhInstruction) (k : BhIrKernel) : Prop where
  views : ∀ p ∈ k.views.map, (∃ j ∈ pre, j.isSystem = false ∧ bhViewSimplify j.operand0 = p.1) ∨
    ∃ q ∈ k.inputMap, q.1 = p.1.base
  outputs : ∀ q ∈ k.outputMap, q.1 ≠ none
  temps : ∀ b ∈ k.temps, b ≠ none ∧ (∃ j ∈ pre, j.opcode = .discard ∧ j.operand0.base = b) ∧
    ∀ q ∈ k.inputMap, q.1 ≠ b
  reads : ∀ n i, pre[n]? = some i → i.isSystem = false → ∀ v ∈ i.inputs, bhIsConstant v = false →
    (∃ j ∈ pre.take n, j.isSystem = false ∧ bhViewSimplify j.operand0 = bhViewSimplify v) ∨
      ∃ q ∈ k.inputMap, q.1 = v.base

/-- What the input operands `vs` of an instruction change. -/
structure Scanned (k k' : BhIrKernel) (vs : List BhView) : Prop where
  temps : k'.temps = k.temps
  outputMap : k'.outputMap = k.outputMap
  seen : ∀ p ∈ k.views.map, p ∈ k'.views.map
  found : ∀ v ∈ vs, bhIsConstant v = false → ∃ p ∈ k'.views.map, p.1 = bhViewSimplify v
  views : ∀ p ∈ k'.views.map, p ∈ k.views.map ∨ ∃ q ∈ k'.inputMap, q.1 = p.1.base
  keep : ∀ q ∈ k.inputMap, q ∈ k'.inputMap
  new : ∀ q ∈ k'.inputMap, q ∈ k.inputMap ∨ ∃ v ∈ vs, bhIsConstant v = false ∧ q.1 = v.base

section Scan
variable {k k' k'' : BhIrKernel} {sweep : Bool} {c : BhConstant} {v : BhView} {vs ws : List BhView}

theorem Scanned.trans (h : Scanned k k' vs) (h' : Scanned k' k'' ws) : Scanned k k'' (vs ++ ws) where
  temps := h'.temps.trans h.temps
  outputMap := h'.outputMap.trans h.outputMap
  seen := fun p hp => h'.seen p (h.seen p hp)
  found := fun u hu hc => by
    rcases List.mem_append.mp hu with hu | hu
    · obtain ⟨p, hp, heq⟩ := h.found u hu hc
      exact ⟨p, h'.seen p hp, heq⟩
    · exact h'.found u hu hc
  views := fun p hp => by
    rcases h'.views p hp with hp | hq
    · rcases h.views p hp with hp | ⟨q, hq, heq⟩
      · exact Or.inl hp
      · exact Or.inr ⟨q, h'.keep q hq, heq⟩
    · exact Or.inr hq
  keep := fun q hq => h'.keep q (h.keep q hq)
  new := fun q hq => by
    rcases h'.new q hq with hq | ⟨u, hu, hc, heq⟩
    · rcases h.new q hq with hq | ⟨u, hu, hc, heq⟩
      · exact Or.inl hq
      · exact Or.inr ⟨u, List.mem_append_left _ hu, hc, heq⟩
    · exact Or.inr ⟨u, List.mem_append_right _ hu, hc, heq⟩

theorem scanned_nil (k : BhIrKernel) : Scanned k k [] :=
  ⟨rfl, rfl, fun _ hp => hp, fun _ hv => absurd hv List.not_mem_nil, fun _ hp => Or.inl hp, fun _ hq => hq,
    fun _ hq => Or.inl hq⟩

/-- A constant is not looked at, and a view that is new makes its array an input. -/
theorem scanned_addInput (k : BhIrKernel) : Scanned k (BhIrKernel.addInput sweep c k v) [v] := by
  cases hc : bhIsConstant v with
  | true =>
    have hnil : Scanned k (BhIrKernel.addInput sweep c k v) [] := by
      unfold BhIrKernel.addInput
      rw [if_pos hc]
      cases sweep with
      | true => exact scanned_nil k
      | false => exact { scanned_nil k with }
    refine { hnil with found := fun u hu hcu => ?_, new := fun q hq => ?_ }
    · rw [List.mem_singleton.mp hu, hc] at hcu
      cases hcu
    · exact Or.inl ((hnil.new q hq).resolve_right fun ⟨u, hu, _⟩ => absurd hu List.not_mem_nil)
  | false =>
    obtain ⟨k₁, hk₁⟩ : ∃ k₁ : BhIrKernel, k₁ = { k with views := (k.views.insert (bhViewSimplify v)).1 } := ⟨_, rfl⟩
    obtain ⟨k₂, hk₂⟩ : ∃ k₂ : BhIrKernel, k₂ = if (k.views.insert (bhViewSimplify v)).2.2 then
      { k₁ with
        inputMap := k₁.inputMap ++ [(v.base, v)]
        inputSet := setInsert v k₁.inputSet
        parameters := (k₁.parameters.insert v.base).1 }
      else k₁ := ⟨_, rfl⟩
    have hadd : BhIrKernel.addInput sweep c k v =
        if k₂.inputShape.length < v.ndim then { k₂ with inputShape := v.shape } else k₂ := by
      rw [hk₂, hk₁, BhIrKernel.addInput, if_neg (by simp [hc])]
    have hscan : Scanned k k₂ [v] := by
      rcases Seqset.insert_spec k.views (bhViewSimplify v) with ⟨hnew, hviews, p, hp, heq⟩ | ⟨hnew, hviews⟩
      · have hk : k₂ = k := by
          rw [hk₂, hnew, hk₁, hviews]
          rfl
        rw [hk]
        refine { scanned_nil k with found := fun u hu _ => ?_, new := fun q hq => Or.inl hq }
        rw [List.mem_singleton.mp hu]
        exact ⟨p, hp, heq⟩
      · have hmap : k₂.views.map = k.views.map ++ [(bhViewSimplify v, k.views.maxid)] := by
          rw [hk₂, hnew, hk₁, ← hviews]
          rfl
        have hinput : k₂.inputMap = k.inputMap ++ [(v.base, v)] := by
          rw [hk₂, hnew, hk₁]
          rfl
        have hrest : k₂.temps = k.temps ∧ k₂.outputMap = k.outputMap := by
          rw [hk₂, hnew, hk₁]
          exact ⟨rfl, rfl⟩
        refine ⟨hrest.1, hrest.2, fun p hp => ?_, fun u hu _ => ?_, fun p hp => ?_, fun q hq => ?_, fun q hq => ?_⟩
        · rw [hmap]
          exact List.mem_append_left _ hp
        · rw [List.mem_singleton.mp hu, hmap]
          exact ⟨_, List.mem_append_right _ List.mem_cons_self, rfl⟩
        · rw [hmap] at hp
          rcases List.mem_append.mp hp with hp | hp
          · exact Or.inl hp
          · rw [List.mem_singleton.mp hp, hinput]
            exact Or.inr ⟨_, List.mem_append_right _ List.mem_cons_self, (base_bhViewSimplify v).symm⟩
        · rw [hinput]
          exact List.mem_append_left _ hq
        · rw [hinput] at hq
          rcases List.mem_append.mp hq with hq | hq
          · exact Or.inl hq
          · rw [List.mem_singleton.mp hq]
            exact Or.inr ⟨v, List.mem_cons_self, hc, rfl⟩
    rw [hadd]
    split_ifs
    · exact { hscan with }
    · exact hscan

theorem scanned_foldl (k : BhIrKernel) (vs : List BhView) :
    Scanned k (vs.foldl (BhIrKernel.addInput sweep c) k) vs := by
  induction vs generalizing k with
  | nil => exact scanned_nil k
  | cons v vs ih => exact (scanned_addInput k).trans (ih _)

end Scan

section Record
variable {pre : List BhInstruction} {k : BhIrKernel} {i : BhInstruction}

/-- The reads of a longer list are those of the list and those of its last instruction. -/
theorem reads_append {inputMap inputMap' : List (Option BhBase × BhView)}
    (h : ∀ n j, pre[n]? = some j → j.isSystem = false → ∀ v ∈ j.inputs, bhIsConstant v = false →
      (∃ j' ∈ pre.take n, j'.isSystem = false ∧ bhViewSimplify j'.operand0 = bhViewSimplify v) ∨
        ∃ q ∈ inputMap, q.1 = v.base)
    (hkeep : ∀ q ∈ inputMap, q ∈ inputMap')
    (hlast : i.isSystem = false → ∀ v ∈ i.inputs, bhIsConstant v = false →
      (∃ j' ∈ pre, j'.isSystem = false ∧ bhViewSimplify j'.operand0 = bhViewSimplify v) ∨
        ∃ q ∈ inputMap', q.1 = v.base) :
    ∀ n j, (pre ++ [i])[n]? = some j → j.isSystem = false → ∀ v ∈ j.inputs, bhIsConstant v = false →
      (∃ j' ∈ (pre ++ [i]).take n, j'.isSystem = false ∧ bhViewSimplify j'.operand0 = bhViewSimplify v) ∨
        ∃ q ∈ inputMap', q.1 = v.base := by
  intro n j hj hsys v hv hc
  rcases Nat.lt_trichotomy n pre.length with hn | rfl | hn
  · rw [List.getElem?_append_left hn] at hj
    rw [List.take_append_of_le_length hn.le]
    rcases h n j hj hsys v hv hc with hw | ⟨q, hq, heq⟩
    · exact Or.inl hw
    · exact Or.inr ⟨q, hkeep q hq, heq⟩
  · rw [List.getElem?_append_right (le_refl _), Nat.sub_self] at hj
    obtain rfl := Option.some.inj hj
    rw [List.take_left]
    exact hlast hsys v hv hc
  · rw [List.getElem?_eq_none (by rw [List.length_append, List.length_singleton]; omega)] at hj
    cases hj

/-- A system instruction that changes none of the fields. -/
theorem Noted.system (h : Noted pre k) (hs : i.isSystem = true) {k' : BhIrKernel} (hviews : k'.views = k.views)
    (hinput : k'.inputMap = k.inputMap) (houtput : ∀ q ∈ k'.outputMap, q ∈ k.outputMap)
    (htemps : ∀ b ∈ k'.temps, b ∈ k.temps ∨
      b ≠ none ∧ (i.opcode = .discard ∧ i.operand0.base = b) ∧ ∀ q ∈ k.inputMap, q.1 ≠ b) :
    Noted (pre ++ [i]) k' where
  views := fun p hp => by
    rw [hviews] at hp
    rw [hinput]
    rcases h.views p hp with ⟨j, hj, hw⟩ | hq
    · exact Or.inl ⟨j, List.mem_append_left _ hj, hw⟩
    · exact Or.inr hq
  outputs := fun q hq => h.outputs q (houtput q hq)
  temps := fun b hb => by
    rw [hinput]
    rcases htemps b hb with hb | ⟨hne, hi, hq⟩
    · obtain ⟨hne, ⟨j, hj, hdisc⟩, hq⟩ := h.temps b hb
      exact ⟨hne, ⟨j, List.mem_append_left _ hj, hdisc⟩, hq⟩
    · exact ⟨hne, ⟨i, List.mem_append_right _ List.mem_cons_self, hi⟩, hq⟩
  reads := by
    refine reads_append h.reads (fun q hq => hinput ▸ hq) fun hsys => ?_
    rw [hs] at hsys
    cases hsys

theorem Noted.discard (h : Noted pre k) (hi : i.opcode = .discard) :
    Noted (pre ++ [i]) (k.addDiscard i.operand0.base) := by
  have hs : i.isSystem = true := by rw [BhInstruction.isSystem, hi]; rfl
  unfold BhIrKernel.addDiscard
  split_ifs with hsync
  · exact h.system hs rfl rfl (fun q hq => hq) fun b hb => Or.inl hb
  · dsimp only
    split_ifs with htemp
    · refine h.system hs rfl rfl (fun q hq => (List.mem_filter.mp hq).1) fun b hb => ?_
      rcases mem_setInsert.mp hb with rfl | hb
      · obtain ⟨q, hq⟩ := List.exists_mem_of_ne_nil _ htemp.1
        obtain ⟨hmem, heq⟩ := List.mem_filter.mp hq
        refine Or.inr ⟨?_, ⟨hi, rfl⟩, htemp.2⟩
        rw [← of_decide_eq_true heq]
        exact h.outputs q hmem
      · exact Or.inl hb
    · exact h.system hs rfl rfl (fun q hq => (List.mem_filter.mp hq).1) fun b hb => Or.inl hb

/-- An array operation, none of whose operands was discarded before. -/
theorem Noted.operation (h : Noted pre k) (hs : i.isSystem = false) (hout : bhIsConstant i.operand0 = false)
    (hused : ∀ j ∈ pre, j.opcode = .discard → ∀ b, j.operand0.base = some b → ∀ v ∈ i.operands, v.base ≠ some b)
    (sweep : Bool) {k' : BhIrKernel} (hk' : k' = (i.inputs.foldl (BhIrKernel.addInput sweep i.constant) k).addOutput
      i.opcode i.operand0) : Noted (pre ++ [i]) k' := by
  obtain ⟨k₁, hk₁⟩ : ∃ k₁, k₁ = i.inputs.foldl (BhIrKernel.addInput sweep i.constant) k := ⟨_, rfl⟩
  have hscan : Scanned k k₁ i.inputs := by
    rw [hk₁]
    exact scanned_foldl k i.inputs
  rw [← hk₁] at hk'
  have hinput : k'.inputMap = k₁.inputMap := by rw [hk']; rfl
  have htemps : k'.temps = k.temps := by rw [hk', ← hscan.temps]; rfl
  have houtput : k'.outputMap = k.outputMap ++ [(i.operand0.base, i.operand0)] := by
    rw [hk', ← hscan.outputMap]
    rfl
  have hviews : k'.views = (k₁.views.insert (bhViewSimplify i.operand0)).1 := by rw [hk']; rfl
  refine ⟨fun p hp => ?_, fun q hq => ?_, fun b hb => ?_, ?_⟩
  · -- a view is an output of this instruction, or it was seen before
    have hp' : p ∈ k₁.views.map ∨ p.1 = bhViewSimplify i.operand0 := by
      rw [hviews] at hp
      rcases Seqset.insert_spec k₁.views (bhViewSimplify i.operand0) with ⟨_, heq, _⟩ | ⟨_, heq⟩
      · rw [heq] at hp
        exact Or.inl hp
      · rw [heq] at hp
        rcases List.mem_append.mp hp with hp | hp
        · exact Or.inl hp
        · rw [List.mem_singleton.mp hp]
          exact Or.inr rfl
    rw [hinput]
    rcases hp' with hp | heq
    · rcases hscan.views p hp with hp | hq
      · rcases h.views p hp with ⟨j, hj, hw⟩ | ⟨q, hq, heq⟩
        · exact Or.inl ⟨j, List.mem_append_left _ hj, hw⟩
        · exact Or.inr ⟨q, hscan.keep q hq, heq⟩
      · exact Or.inr hq
    · exact Or.inl ⟨i, List.mem_append_right _ List.mem_cons_self, hs, heq.symm⟩
  · rw [houtput] at hq
    rcases List.mem_append.mp hq with hq | hq
    · exact h.outputs q hq
    · rw [List.mem_singleton.mp hq]
      intro hnone
      rw [bhIsConstant, show i.operand0.base = none from hnone] at hout
      cases hout
  · rw [htemps] at hb
    rw [hinput]
    obtain ⟨hne, ⟨j, hj, hdisc, hbase⟩, hq⟩ := h.temps b hb
    refine ⟨hne, ⟨j, List.mem_append_left _ hj, hdisc, hbase⟩, fun q hqm heq => ?_⟩
    rcases hscan.new q hqm with hqm | ⟨v, hv, _, hqv⟩
    · exact hq q hqm heq
    · cases b with
      | none => exact hne rfl
      | some b =>
        apply hused j hj hdisc b hbase v (BhInstruction.mem_operands_of_mem_inputs hv)
        rw [← hqv, heq]
  · rw [hinput]
    refine reads_append h.reads hscan.keep fun _ v hv hc => ?_
    obtain ⟨p, hp, heq⟩ := hscan.found v hv hc
    rcases hscan.views p hp with hp | ⟨q, hq, hqp⟩
    · rcases h.views p hp with ⟨j, hj, hsys, hw⟩ | ⟨q, hq, hqp⟩
      · exact Or.inl ⟨j, hj, hsys, hw.trans heq⟩
      · exact Or.inr ⟨q, hscan.keep q hq, by rw [hqp, heq, base_bhViewSimplify]⟩
    · exact Or.inr ⟨q, hq, by rw [hqp, heq, base_bhViewSimplify]⟩

theorem Noted.record (h : Noted pre k) (hout : i.isSystem = false → bhIsConstant i.operand0 = false)
    (hused : ∀ j ∈ pre, j.opcode = .discard → ∀ b, j.operand0.base = some b → ∀ v ∈ i.operands, v.base ≠ some b) :
    Noted (pre ++ [i]) (k.record i) := by
  cases hs : i.isSystem with
  | false =>
    rw [BhIrKernel.record_operation k hs]
    have hop := h.operation hs (hout hs) hused (bhOpcodeIsSweep i.opcode) rfl
    dsimp only
    split_ifs
    · exact { hop with }
    · exact hop
  | true =>
    have hsame : ∀ k' : BhIrKernel, k'.views = k.views → k'.inputMap = k.inputMap → k'.outputMap = k.outputMap →
        k'.temps = k.temps → Noted (pre ++ [i]) k' := fun k' hv hi ho ht =>
      h.system hs hv hi (fun q hq => ho ▸ hq) fun b hb => Or.inl (ht ▸ hb)
    rcases BhInstruction.opcode_of_system hs with hop | hop | hop | hop
    · rw [BhIrKernel.record, hop]
      exact hsame _ rfl rfl rfl rfl
    · rw [BhIrKernel.record, hop]
      exact hsame _ rfl rfl rfl rfl
    · rw [BhIrKernel.record, hop]
      dsimp only
      split_ifs
      · exact hsame _ rfl rfl rfl rfl
      · exact hsame _ rfl rfl rfl rfl
    · rw [BhIrKernel.record, hop]
      exact h.discard hop

end Record

/-- No array is used after its `BH_DISCARD`. -/
def NoUseAfterDiscard (l : List BhInstruction) : Prop :=
  l.Pairwise fun i j => i.opcode = .discard → ∀ b ∈ i.operand0.base, ∀ v ∈ j.operands, v.base ≠ some b

instance (l : List BhInstruction) : Decidable (NoUseAfterDiscard l) := by
  unfold NoUseAfterDiscard
  infer_instance

theorem noted_foldl {l pre : List BhInstruction} {idxs : List ℕ} {k : BhIrKernel} (h : Noted pre k)
    (hout : ∀ i ∈ kernelInstrs l idxs, i.isSystem = false → bhIsConstant i.operand0 = false)
    (hused : NoUseAfterDiscard (pre ++ kernelInstrs l idxs)) :
    Noted (pre ++ kernelInstrs l idxs) (idxs.foldl (BhIrKernel.addInstr l) k) := by
  induction idxs generalizing pre k with
  | nil =>
    rw [kernelInstrs, List.map_nil, List.append_nil]
    exact h
  | cons n idxs ih =>
    have hcons : kernelInstrs l (n :: idxs) = instrAt l n :: kernelInstrs l idxs := rfl
    rw [hcons] at hout hused ⊢
    rw [List.forall_mem_cons] at hout
    have hstep : Noted (pre ++ [instrAt l n]) (BhIrKernel.addInstr l k n) := by
      refine { h.record hout.1 fun j hj => ?_ with }
      exact (List.pairwise_append.mp hused).2.2 j hj _ List.mem_cons_self
    rw [List.append_cons] at hused ⊢
    exact ih hstep hout.2 hused

theorem noted_kernelOf {l : List BhInstruction} {idxs : List ℕ}
    (hout : ∀ i ∈ kernelInstrs l idxs, i.isSystem = false → bhIsConstant i.operand0 = false)
    (hused : NoUseAfterDiscard (kernelInstrs l idxs)) : Noted (kernelInstrs l idxs) (kernelOf l idxs) := by
  have hstart : Noted [] ({} : BhIrKernel) := by
    refine ⟨fun p hp => ?_, fun q hq => ?_, fun b hb => ?_, fun n i hi => ?_⟩
    · cases hp
    · cases hq
    · cases hb
    · cases hi
  exact noted_foldl hstart hout hused

/-- A temporary is read only after these elements were written. -/
theorem written_before_read {l : List BhInstruction} {idxs : List ℕ}
    (hout : ∀ i ∈ kernelInstrs l idxs, i.isSystem = false → bhIsConstant i.operand0 = false)
    (hused : NoUseAfterDiscard (kernelInstrs l idxs)) {n : ℕ} {i : BhInstruction}
    (hi : (kernelInstrs l idxs)[n]? = some i) (hs : i.isSystem = false) {v : BhView} (hv : v ∈ i.inputs)
    (ht : v.base ∈ (kernelOf l idxs).temps) :
    ∃ j ∈ (kernelInstrs l idxs).take n, j.isSystem = false ∧ bhViewSimplify j.operand0 = bhViewSimplify v := by
  have hnoted := noted_kernelOf hout hused
  obtain ⟨hne, _, hinput⟩ := hnoted.temps v.base ht
  have hc : bhIsConstant v = false := by
    cases hb : v.base with
    | none => exact absurd hb hne
    | some b => exact not_bhIsConstant hb
  rcases hnoted.reads n i hi hs v hv hc with hw | ⟨q, hq, heq⟩
  · exact hw
  · exact absurd heq (hinput q hq)

/-! ## Reads and writes -/

/-- The view of the last write to the elements of a view. -/
def lastWrite (pre : List BhInstruction) (v : BhView) : Option BhView :=
  (pre.reverse.find? fun j => !j.isSystem && bhViewAligned j.operand0 v).map BhInstruction.operand0

/-- A read of a temporary after the instructions `pre` is through the view of the last write to its
elements. -/
def FreshRead (temps : List (Option BhBase)) (pre : List BhInstruction) (v : BhView) : Prop :=
  v.base ∈ temps → ∀ w ∈ lastWrite pre v, w = v

instance (temps : List (Option BhBase)) (pre : List BhInstruction) (v : BhView) : Decidable (FreshRead temps pre v) := by
  unfold FreshRead
  infer_instance

/-- All reads of temporaries are so. -/
def FreshReads (temps : List (Option BhBase)) (l : List BhInstruction) : Prop :=
  ∀ n < l.length, ∀ i ∈ l[n]?, i.isSystem = false → ∀ v ∈ i.inputs, FreshRead temps (l.take n) v

instance (temps : List (Option BhBase)) (l : List BhInstruction) : Decidable (FreshReads temps l) := by
  unfold FreshReads
  infer_instance

/-- Every read of a temporary follows a write of the same entry of the symbol table. -/
def WrittenBeforeRead (temps : List (Option BhBase)) (table : List Operand) (l : List BhInstruction) : Prop :=
  ∀ n < l.length, ∀ i ∈ l[n]?, i.isSystem = false → ∀ v ∈ i.inputs, v.base ∈ temps →
    ∃ j ∈ l.take n, j.isSystem = false ∧ symbolOf table j.operand0 = symbolOf table v

section LastWrite
variable {pre : List BhInstruction} {i : BhInstruction} {v w : BhView}

theorem lastWrite_append (pre : List BhInstruction) (i : BhInstruction) (v : BhView) :
    lastWrite (pre ++ [i]) v =
      if i.isSystem = false ∧ bhViewAligned i.operand0 v = true then some i.operand0 else lastWrite pre v := by
  unfold lastWrite
  rw [List.reverse_append, List.reverse_singleton, List.singleton_append, List.find?_cons]
  by_cases h : i.isSystem = false ∧ bhViewAligned i.operand0 v = true
  · rw [if_pos h, h.1, h.2]
    rfl
  · have hfalse : (!i.isSystem && bhViewAligned i.operand0 v) = false := by
      rw [Bool.eq_false_iff]
      intro htrue
      rw [Bool.and_eq_true, Bool.not_eq_true'] at htrue
      exact h htrue
    rw [if_neg h, hfalse]

theorem exists_of_lastWrite (h : lastWrite pre v = some w) : ∃ j ∈ pre, j.isSystem = false ∧ j.operand0 = w := by
  obtain ⟨j, hj, rfl⟩ := Option.map_eq_some_iff.mp h
  have hmem := List.mem_of_find?_eq_some hj
  have hprop := List.find?_some hj
  rw [Bool.and_eq_true, Bool.not_eq_true'] at hprop
  exact ⟨j, List.mem_reverse.mp hmem, hprop.1, rfl⟩

theorem lastWrite_isSome {j : BhInstruction} (hj : j ∈ pre) (hs : j.isSystem = false)
    (ha : bhViewSimplify j.operand0 = bhViewSimplify v) : (lastWrite pre v).isSome := by
  unfold lastWrite
  rw [Option.isSome_map, List.find?_isSome]
  refine ⟨j, List.mem_reverse.mpr hj, ?_⟩
  rw [hs, bhViewAligned, ha]
  simp

theorem bhViewAligned_self (v : BhView) : bhViewAligned v v = true := by simp [bhViewAligned]

end LastWrite

theorem instrAt_mem {l : List BhInstruction} {n : ℕ} (h : (instrAt l n).isSystem = false) : instrAt l n ∈ l := by
  unfold instrAt at h ⊢
  rw [List.getD_eq_getElem?_getD] at h ⊢
  cases hn : l[n]? with
  | none =>
    rw [hn] at h
    cases h
  | some i =>
    rw [Option.getD_some]
    exact List.mem_of_getElem? hn

/-! ## One iteration -/

section Iteration
variable {V : Type} (I : Interp V) {temps : List (Option BhBase)} {table : List Operand} {l pre : List BhInstruction}
variable {i : BhInstruction} {shape idx : List ℕ} {m : Mem V} {s : Frame V}

/-- Memory agrees outside the temporaries, and a variable that was written last holds what memory holds at
this index. -/
structure Sim (temps : List (Option BhBase)) (table : List Operand) (idx : List ℕ) (pre : List BhInstruction)
    (m : Mem V) (s : Frame V) : Prop where
  mem : ∀ b o, some b ∉ temps → s.mem (b, o) = m (b, o)
  vars : ∀ v b, v.base = some b → some b ∈ temps → lastWrite pre v = some v →
    s.vars (symbolOf table v) = m (b, v.offset idx)

/-- What the iteration needs of the kernel. -/
structure Fused (temps : List (Option BhBase)) (table : List Operand) (shape : List ℕ) (l : List BhInstruction) :
    Prop where
  kind : ∀ i ∈ l, i.isSystem = false → i.kind = .elementwise
  out : ∀ i ∈ l, i.isSystem = false → ∃ b, i.operand0.base = some b
  shape : ∀ i ∈ l, i.isSystem = false → i.operand0.shape = shape
  entry : ∀ i ∈ l, i.isSystem = false → operandOf i.operand0 ∈ table
  apart : l.Pairwise fun j i => j.isSystem = false → i.isSystem = false →
    bhViewAligned i.operand0 j.operand0 = true ∨ ¬ BhView.Overlap i.operand0 j.operand0
  none : none ∉ temps
  written : ∀ n i, l[n]? = some i → i.isSystem = false → ∀ v ∈ i.inputs, v.base ∈ temps →
    ∃ j ∈ l.take n, j.isSystem = false ∧ bhViewSimplify j.operand0 = bhViewSimplify v
  fresh : FreshReads temps l

/-- The operands of an instruction have the values that they have in memory. -/
theorem Sim.inputs (hl : Fused temps table shape l) {post : List BhInstruction} (hsplit : l = pre ++ i :: post)
    (hs : i.isSystem = false) (h : Sim temps table idx pre m s) :
    (i.inputs.map fun v => loadOperand I temps table i.constant v idx s) =
      i.inputs.map fun v => load I i.constant v idx m := by
  apply List.map_congr_left
  intro v hv
  unfold loadOperand
  cases hb : v.base with
  | none =>
    rw [if_neg hl.none, load, load, hb]
  | some b =>
    split_ifs with ht
    · have hi : l[pre.length]? = some i := by
        rw [hsplit, List.getElem?_append_right (le_refl _), Nat.sub_self]
        rfl
      have htake : l.take pre.length = pre := by
        rw [hsplit, List.take_left]
      have hlt : pre.length < l.length := by
        rw [hsplit, List.length_append, List.length_cons]
        omega
      obtain ⟨j, hj, hjs, hja⟩ := hl.written pre.length i hi hs v hv (hb ▸ ht)
      rw [htake] at hj
      obtain ⟨w, hw⟩ := Option.isSome_iff_exists.mp (lastWrite_isSome hj hjs hja)
      have hwv : w = v := hl.fresh pre.length hlt i hi hs v hv (hb ▸ ht) w (by rw [htake]; exact hw)
      rw [hwv] at hw
      rw [h.vars v b hb ht hw, load, hb]
    · rw [load, load, hb]
      exact h.mem b _ ht

/-- An array operation keeps the simulation. -/
theorem Sim.step (hl : Fused temps table shape l) {post : List BhInstruction} (hsplit : l = pre ++ i :: post)
    (hs : i.isSystem = false) (hidx : idx ∈ indices shape) (h : Sim temps table idx pre m s) :
    Sim temps table idx (pre ++ [i]) (stepAt I i idx m) (stepContracted I temps table i idx s) := by
  have hmem : i ∈ l := by
    rw [hsplit]
    exact List.mem_append_right _ List.mem_cons_self
  obtain ⟨u, hu⟩ : ∃ u, u = i.operand0 := ⟨_, rfl⟩
  obtain ⟨bu, hbu⟩ := hl.out i hmem hs
  obtain ⟨x, hx⟩ : ∃ x, x = I.ewise i.opcode i.types (i.inputs.map fun v => load I i.constant v idx m) := ⟨_, rfl⟩
  have hstep : stepAt I i idx m = Function.update m (bu, u.offset idx) x := by
    rw [stepAt, hl.kind i hmem hs]
    dsimp only
    rw [← hx, store, hbu, hu]
  have hcontracted : stepContracted I temps table i idx s = storeOperand temps table u idx x s := by
    rw [stepContracted, Sim.inputs I hl hsplit hs h, ← hx, hu]
  rw [← hu] at hbu
  rw [hstep, hcontracted]
  -- a write of another view to which the last write was exact
  have hother : ∀ v b, v.base = some b → lastWrite pre v = some v → bhViewAligned u v = false →
      (b, v.offset idx) ≠ (bu, u.offset idx) ∧ symbolOf table v ≠ symbolOf table u := by
    intro v b hb hlast hna
    obtain ⟨j, hj, hjs, rfl⟩ := exists_of_lastWrite hlast
    have hjl : j ∈ l := by
      rw [hsplit]
      exact List.mem_append_left _ hj
    refine ⟨fun heq => ?_, fun heq => ?_⟩
    · have hapart := hl.apart
      rw [hsplit] at hapart
      have hji := (List.pairwise_append.mp hapart).2.2 j hj i List.mem_cons_self hjs hs
      rw [← hu, hna] at hji
      have hno := hji.resolve_left Bool.false_ne_true
      rw [Prod.mk.injEq] at heq
      apply hno
      refine ⟨by rw [hbu]; rfl, by rw [hbu, hb, heq.1], u.offset idx, ?_, ?_⟩
      · rw [BhView.offsets_eq_map, hu, hl.shape i hmem hs]
        exact List.mem_map_of_mem hidx
      · rw [← heq.2, BhView.offsets_eq_map, hl.shape j hjl hjs]
        exact List.mem_map_of_mem hidx
    · have hsame := symbolOf_inj (hl.entry j hjl hjs) heq
      rw [hsame, bhViewAligned_self] at hna
      cases hna
  unfold storeOperand
  split_ifs with ht
  · rw [hbu] at ht
    refine ⟨fun b o hb => ?_, fun v b hb hbt hlast => ?_⟩
    · rw [Function.update_of_ne]
      · exact h.mem b o hb
      · intro heq
        rw [Prod.mk.injEq] at heq
        exact hb (heq.1 ▸ ht)
    · rw [lastWrite_append, ← hu] at hlast
      split_ifs at hlast with ha
      · obtain rfl := Option.some.inj hlast
        have hbb : b = bu := Option.some.inj (hb.symm.trans hbu)
        dsimp only
        rw [Function.update_self, hbb, Function.update_self]
      · have hna : bhViewAligned u v = false := by
          rw [Bool.eq_false_iff]
          exact fun hc => ha ⟨hs, hc⟩
        obtain ⟨hloc, hsym⟩ := hother v b hb hlast hna
        dsimp only
        rw [Function.update_of_ne hsym, Function.update_of_ne hloc]
        exact h.vars v b hb hbt hlast
  · rw [hbu] at ht
    refine ⟨fun b o hb => ?_, fun v b hb hbt hlast => ?_⟩
    · dsimp only
      rw [store, hbu]
      dsimp only
      rw [Function.update_apply, Function.update_apply, h.mem b o hb]
    · have hne : b ≠ bu := fun heq => ht (heq ▸ hbt)
      rw [lastWrite_append, ← hu] at hlast
      split_ifs at hlast with ha
      · obtain rfl := Option.some.inj hlast
        exact absurd (Option.some.inj (hb.symm.trans hbu)) hne
      · rw [Function.update_of_ne (fun heq => hne (Prod.mk.injEq _ _ _ _ ▸ heq).1)]
        exact h.vars v b hb hbt hlast

theorem Sim.system (hs : i.isSystem = true) (h : Sim temps table idx pre m s) :
    Sim temps table idx (pre ++ [i]) m s := by
  refine ⟨h.mem, fun v b hb ht hlast => h.vars v b hb ht ?_⟩
  rw [lastWrite_append, if_neg (by simp [hs])] at hlast
  exact hlast

/-- All operations at one index. -/
theorem Sim.foldl (hl : Fused temps table shape l) (hidx : idx ∈ indices shape) {post : List BhInstruction}
    (hsplit : l = pre ++ post) (h : Sim temps table idx pre m s) :
    Sim temps table idx l ((post.filter fun i => !i.isSystem).foldl (fun m j => stepAt I j idx m) m)
      ((post.filter fun i => !i.isSystem).foldl (fun s j => stepContracted I temps table j idx s) s) := by
  induction post generalizing pre m s with
  | nil =>
    rw [List.append_nil] at hsplit
    rw [hsplit]
    exact h
  | cons i post ih =>
    have hnext : l = (pre ++ [i]) ++ post := by rw [hsplit, List.append_cons]
    cases hs : i.isSystem with
    | true =>
      rw [List.filter_cons_of_neg (by simp [hs])]
      exact ih hnext (h.system hs)
    | false =>
      rw [List.filter_cons_of_pos (by simp [hs])]
      exact ih hnext (h.step I hl hsplit hs hidx)

/-- One iteration after the other; at its beginning no variable counts as written. -/
theorem Fused.foldl_indices (hl : Fused temps table shape l) {space : List (List ℕ)}
    (hspace : ∀ idx ∈ space, idx ∈ indices shape) (h : ∀ b o, some b ∉ temps → s.mem (b, o) = m (b, o)) :
    ∀ b o, some b ∉ temps →
      (space.foldl (fun s idx =>
        (l.filter fun i => !i.isSystem).foldl (fun s j => stepContracted I temps table j idx s) s) s).mem (b, o) =
      space.foldl (fun m idx => (l.filter fun i => !i.isSystem).foldl (fun m j => stepAt I j idx m) m) m (b, o) := by
  induction space generalizing m s with
  | nil => exact h
  | cons idx space ih =>
    rw [List.forall_mem_cons] at hspace
    rw [List.foldl_cons, List.foldl_cons]
    have hstart : Sim temps table idx [] m s := ⟨h, fun v b _ _ hlast => absurd hlast (by simp [lastWrite])⟩
    exact ih hspace.2 (hstart.foldl I hl hspace.1 (List.nil_append l).symm).mem

end Iteration

/-! ## The whole loop -/

section Contraction
variable {V : Type} (I : Interp V)

/-- Contraction keeps the meaning of a kernel: whatever the variables hold before the loop, memory is left
as without it, outside the temporaries, and no variable is read before it is written. -/
structure Contracts (l : List BhInstruction) (idxs : List ℕ) : Prop where
  mem : ∀ (m : Mem V) (vars : ℕ → V) b o, some b ∉ (kernelOf l idxs).temps →
    (runContracted I (kernelOf l idxs).temps (instrsToTacs l) (kernelInstrs l idxs) ⟨m, vars⟩).mem (b, o) =
      runFused I (kernelInstrs l idxs) m (b, o)
  reads : WrittenBeforeRead (kernelOf l idxs).temps (instrsToTacs l) (kernelInstrs l idxs)

/-- A kernel as the same-shape model makes it: elementwise operations that are accepted pairwise. -/
structure SameShapeKernel (l : List BhInstruction) : Prop where
  ewise : ∀ i ∈ l, i.isSystem = false →
    bhOpcodeIsElementwise i.opcode = true ∧ bhIsConstant i.operand0 = false
  pair : l.Pairwise fun a b => fuseSameShape a b = true ∨ fuseSameShape b a = true
  discard : NoUseAfterDiscard l
  truth : ∀ i ∈ l, ∀ j ∈ l, ∀ u ∈ i.operands, ∀ v ∈ j.operands, Truthful u v

theorem SameShapeKernel.sameLoop {l : List BhInstruction} (h : SameShapeKernel l) :
    l.Pairwise fun a b => a.isSystem = false → b.isSystem = false → SameLoop a b := by
  refine h.pair.imp_of_mem ?_
  intro a b ha hb hab has hbs
  rcases hab with hab | hab
  · exact sameLoop_of_fuseSameShape has hbs (h.ewise b hb hbs).2 hab
  · exact (sameLoop_of_fuseSameShape hbs has (h.ewise a ha has).2 hab).symm

/-- All outputs have the shape of the first one. -/
theorem SameShapeKernel.shape_eq {l rest : List BhInstruction} {i : BhInstruction} (h : SameShapeKernel l)
    (hl : l.filter (fun i => !i.isSystem) = i :: rest) {j : BhInstruction} (hj : j ∈ l) (hs : j.isSystem = false) :
    j.operand0.shape = i.operand0.shape := by
  have hpair := h.sameLoop.sublist (List.filter_sublist (p := fun i => !i.isSystem))
  rw [hl] at hpair
  have hmem : j ∈ i :: rest := by
    rw [← hl]
    exact List.mem_filter.mpr ⟨hj, by simp [hs]⟩
  have hi : i.isSystem = false := by
    have hin : i ∈ l.filter fun i => !i.isSystem := by
      rw [hl]
      exact List.mem_cons_self
    simpa using (List.mem_filter.mp hin).2
  rcases List.mem_cons.mp hmem with rfl | hmem
  · rfl
  · exact ((List.pairwise_cons.mp hpair).1 j hmem hi hs).shape

theorem fused_kernel {l rest : List BhInstruction} {idxs : List ℕ} {i : BhInstruction}
    (h : SameShapeKernel (kernelInstrs l idxs)) (hfresh : FreshReads (kernelOf l idxs).temps (kernelInstrs l idxs))
    (hl : (kernelInstrs l idxs).filter (fun i => !i.isSystem) = i :: rest) :
    Fused (kernelOf l idxs).temps (instrsToTacs l) i.operand0.shape (kernelInstrs l idxs) := by
  have hout := fun i hi hs => (h.ewise i hi hs).2
  have hnoted := noted_kernelOf hout h.discard
  refine ⟨fun j hj hs => kind_of_elementwise hs (h.ewise j hj hs).1, fun j hj hs => ?_,
    fun j hj hs => h.shape_eq hl hj hs, fun j hj hs => ?_, ?_, fun hnone => (hnoted.temps none hnone).1 rfl,
    fun n j hj hs v hv ht => written_before_read hout h.discard hj hs hv ht, hfresh⟩
  · have hc := hout j hj hs
    cases hb : j.operand0.base with
    | none =>
      rw [bhIsConstant, hb] at hc
      cases hc
    | some b => exact ⟨b, rfl⟩
  · obtain ⟨n, _, rfl⟩ := List.mem_map.mp hj
    exact mem_instrsToTacs (instrAt_mem hs) (BhInstruction.operand0_mem (bhOperands_ne_zero_of_not_system hs))
      (hout _ hj hs)
  · refine h.sameLoop.imp_of_mem ?_
    intro a b ha hb hab has hbs
    have h0a := BhInstruction.operand0_mem (bhOperands_ne_zero_of_not_system has)
    have h0b := BhInstruction.operand0_mem (bhOperands_ne_zero_of_not_system hbs)
    rcases Bool.or_eq_true_iff.mp ((hab has hbs).right _ h0a) with hdis | hal
    · exact Or.inr (h.truth b hb a ha _ h0b _ h0a hdis)
    · exact Or.inl hal

/-- If every read of a temporary is through the view of the last write to its elements, contraction keeps
the meaning of the kernel. -/
theorem contracts_of_freshReads (l : List BhInstruction) (idxs : List ℕ) (h : SameShapeKernel (kernelInstrs l idxs))
    (hfresh : FreshReads (kernelOf l idxs).temps (kernelInstrs l idxs)) : Contracts I l idxs := by
  constructor
  · intro m vars b o hb
    unfold runContracted runFused
    cases hl : (kernelInstrs l idxs).filter (fun i => !i.isSystem) with
    | nil => rfl
    | cons i rest =>
      have hfused := fused_kernel h hfresh hl
      have hmem : i ∈ kernelInstrs l idxs ∧ i.isSystem = false := by
        have hin : i ∈ (kernelInstrs l idxs).filter fun i => !i.isSystem := by
          rw [hl]
          exact List.mem_cons_self
        simpa using List.mem_filter.mp hin
      have hspace : indexSpace i = indices i.operand0.shape := by
        rw [indexSpace, hfused.kind i hmem.1 hmem.2]
      dsimp only
      rw [hspace, ← hl]
      exact hfused.foldl_indices I (fun _ hidx => hidx) (fun _ _ _ => rfl) b o hb
  · intro n hn i hi hs v hv ht
    have hout := fun i hi hs => (h.ewise i hi hs).2
    obtain ⟨j, hj, hjs, hja⟩ := written_before_read hout h.discard hi hs hv ht
    obtain ⟨w, hw⟩ := Option.isSome_iff_exists.mp (lastWrite_isSome hj hjs hja)
    obtain ⟨j', hj', hjs', hjw⟩ := exists_of_lastWrite hw
    refine ⟨j', hj', hjs', ?_⟩
    rw [hjw, hfresh n hn i hi hs v hv ht w hw]

end Contraction

/-- `t = x + 1; y = t * t; BH_FREE t; BH_DISCARD t` on vectors. -/
def squareOfSum : List BhInstruction :=
  let x : BhView := ⟨some ⟨0, .int64, 3⟩, 0, [⟨3, 1⟩]⟩
  let t : BhView := ⟨some ⟨1, .int64, 3⟩, 0, [⟨3, 1⟩]⟩
  let y : BhView := ⟨some ⟨2, .int64, 3⟩, 0, [⟨3, 1⟩]⟩
  let c : BhView := ⟨none, 0, []⟩
  [⟨.add, t, x, c, .int .int64 1⟩, ⟨.multiply, y, t, t, .int .int64 0⟩, ⟨.free, t, c, c, .int .int64 0⟩,
    ⟨.discard, t, c, c, .int .int64 0⟩]

theorem contracts_squareOfSum : (kernelOf squareOfSum [0, 1, 2, 3]).temps = [some ⟨1, .int64, 3⟩] ∧
    Contracts intInterp squareOfSum [0, 1, 2, 3] := by
  refine ⟨by decide, contracts_of_freshReads intInterp squareOfSum [0, 1, 2, 3] ⟨?_, ?_, ?_, ?_⟩ ?_⟩
  all_goals decide

/-- A column is written as it lies in memory and read as the transpose of a row: `t = x; y = t';
BH_DISCARD t`. The two views of `t` differ in the stride of the dimension of length one. -/
def transposedColumn : List BhInstruction :=
  let x : BhView := ⟨some ⟨0, .int64, 2⟩, 0, [⟨2, 1⟩, ⟨1, 1⟩]⟩
  let t : BhView := ⟨some ⟨1, .int64, 2⟩, 0, [⟨2, 1⟩, ⟨1, 1⟩]⟩
  let t' : BhView := ⟨some ⟨1, .int64, 2⟩, 0, [⟨2, 1⟩, ⟨1, 2⟩]⟩
  let y : BhView := ⟨some ⟨2, .int64, 2⟩, 0, [⟨2, 1⟩, ⟨1, 1⟩]⟩
  let c : BhView := ⟨none, 0, []⟩
  [⟨.identity, t, x, c, .int .int64 0⟩, ⟨.identity, y, t', c, .int .int64 0⟩, ⟨.discard, t, c, c, .int .int64 0⟩]

theorem not_contracts_transposedColumn : SameShapeKernel (kernelInstrs transposedColumn [0, 1, 2]) ∧
    ¬ Contracts intInterp transposedColumn [0, 1, 2] := by
  refine ⟨⟨by decide, by decide, by decide, by decide⟩, fun h => ?_⟩
  · have hmem := h.mem (fun l => l.2 + 5) (fun _ => 0) ⟨2, .int64, 2⟩ 0 (by decide)
    revert hmem
    decide

end Bohrium.Engine
