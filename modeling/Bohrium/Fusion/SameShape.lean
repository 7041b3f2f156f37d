import Bohrium.Core.Fuse
import Bohrium.Semantics.Loop

/-! # Fusing instructions of one shape

Instructions that the same-shape model accepts pairwise may run in one loop nest. At different
indices two of them commute: the output of one and an operand of the other are disjoint, or they
run through the same locations in step and the output visits each location once. -/
namespace Bohrium
open Strided Reorder
set_option autoImplicit false

section
variable {V : Type} (I : Interp V)

/-- The fused loop nest: for every index of the common shape, all operations in order. -/
def runFused (l : List BhInstruction) (m : Mem V) : Mem V :=
  match l.filter (fun i => !i.isSystem) with
  | [] => m
  | i :: rest =>
    (indexSpace i).foldl (fun m idx => (i :: rest).foldl (fun m j => stepAt I j idx m) m) m

theorem runSequential_filter (l : List BhInstruction) (m : Mem V) :
    runSequential I (l.filter fun i => !i.isSystem) m = runSequential I l m := by
  unfold runSequential
  induction l generalizing m with
  | nil => rfl
  | cons i l ih =>
    cases hi : i.isSystem with
    | true =>
      rw [List.filter_cons_of_neg (by simp [hi]), List.foldl_cons, runInstr_system I hi]
      exact ih m
    | false =>
      rw [List.filter_cons_of_pos (by simp [hi]), List.foldl_cons, List.foldl_cons]
      exact ih _

end

theorem nodup_indexSpace (i : BhInstruction) : (indexSpace i).Nodup := by
  unfold indexSpace
  cases i.kind <;> first | exact List.nodup_nil | exact nodup_indices _

theorem kind_of_elementwise {i : BhInstruction} (hs : i.isSystem = false)
    (he : bhOpcodeIsElementwise i.opcode = true) : i.kind = .elementwise := by
  have hs' : bhOpcodeIsSystem i.opcode = false := hs
  simp [BhInstruction.kind, bhKind, hs', he]

/-- At different indices the output of one instruction misses the operands of the other. -/
theorem locAt_disjoint {out v : BhView} (hacc : disjointOrAligned out v = true) (htr : Truthful out v)
    (hout : bhIsConstant out = false) (hnd : out.offsets.Nodup)
    (hshape : bhIsConstant v = false → v.shape = out.shape) {s t : List ℕ}
    (hs : s ∈ indices out.shape) (ht : t ∈ indices out.shape) (hst : s ≠ t) :
    Disjoint (out.locAt s) (v.locAt t) := by
  rw [Set.disjoint_left]
  intro l hl hl'
  have hv : bhIsConstant v = false := not_bhIsConstant hl'.1
  have hvs := hshape hv
  rcases Bool.or_eq_true_iff.mp hacc with hdis | hal
  · refine Set.disjoint_left.mp (BhView.disjoint_locs (htr hdis)) (BhView.locAt_subset_locs hs hl) ?_
    exact BhView.locAt_subset_locs (hvs.symm ▸ ht) hl'
  · have hoff : out.offset t = v.offset t := bhViewAligned_offset hal hout hv hvs.symm ht
    have heq : out.offset s = out.offset t := by rw [hoff, ← hl.2, ← hl'.2]
    exact hst (List.inj_on_of_nodup_map hnd hs ht heq)

section
variable {V : Type} (I : Interp V)

/-- The locations of the operands at one index. -/
def BhInstruction.touchedAt (i : BhInstruction) (idx : List ℕ) : Set Loc :=
  {l | ∃ v ∈ i.operands, l ∈ v.locAt idx}

theorem stepAt_footprint_at {i : BhInstruction} (hs : i.isSystem = false)
    (he : bhOpcodeIsElementwise i.opcode = true) (idx : List ℕ) :
    Footprint (stepAt I i idx) (i.touchedAt idx) (i.operand0.locAt idx) := by
  have h0 := BhInstruction.operand0_mem (bhOperands_ne_zero_of_not_system hs)
  unfold stepAt
  simp only [kind_of_elementwise hs he]
  refine store_footprint (le_refl _) (fun l hl => ⟨i.operand0, h0, hl⟩) fun m m' hm => ?_
  refine congrArg _ (List.map_congr_left fun v hv => load_congr I (fun l hl => ?_) hm)
  exact ⟨v, BhInstruction.mem_operands_of_mem_inputs hv, hl⟩

/-- Two accepted instructions: both elementwise, all operands of one shape, outputs checked. -/
structure SameLoop (a b : BhInstruction) : Prop where
  ewise_left : bhOpcodeIsElementwise a.opcode = true
  ewise_right : bhOpcodeIsElementwise b.opcode = true
  shape : b.operand0.shape = a.operand0.shape
  shape_left : ∀ v ∈ a.operands, bhIsConstant v = false → v.shape = a.operand0.shape
  shape_right : ∀ v ∈ b.operands, bhIsConstant v = false → v.shape = a.operand0.shape
  left : ∀ v ∈ b.operands, disjointOrAligned a.operand0 v = true
  right : ∀ v ∈ a.operands, disjointOrAligned b.operand0 v = true

theorem SameLoop.symm {a b : BhInstruction} (h : SameLoop a b) : SameLoop b a where
  ewise_left := h.ewise_right
  ewise_right := h.ewise_left
  shape := h.shape.symm
  shape_left := fun v hv hc => (h.shape_right v hv hc).trans h.shape.symm
  shape_right := fun v hv hc => (h.shape_left v hv hc).trans h.shape.symm
  left := h.right
  right := h.left

theorem sameLoop_of_fuseSameShape {a b : BhInstruction} (ha : a.isSystem = false)
    (hb : b.isSystem = false) (hcb : bhIsConstant b.operand0 = false)
    (h : fuseSameShape a b = true) : SameLoop a b := by
  obtain ⟨hea, heb, hina, hopb, hbr⟩ := fuseSameShapeOver_spec ha hb h
  obtain ⟨hr, hl⟩ := fuseBroadest_spec ha hb hbr
  have h0b := BhInstruction.operand0_mem (bhOperands_ne_zero_of_not_system hb)
  refine ⟨hea, heb, allOfShape_eq_true hopb h0b hcb, ?_, fun v hv => allOfShape_eq_true hopb hv, hl, hr⟩
  intro v hv hc
  rw [BhInstruction.operands_eq_cons (bhOperands_ne_zero_of_not_system ha)] at hv
  rcases List.mem_cons.mp hv with rfl | hv
  · rfl
  · exact allOfShape_eq_true hina hv hc

theorem SameLoop.indexSpace_eq {a b : BhInstruction} (h : SameLoop a b) (ha : a.isSystem = false)
    (hb : b.isSystem = false) : indexSpace b = indexSpace a := by
  simp only [indexSpace, kind_of_elementwise ha h.ewise_left, kind_of_elementwise hb h.ewise_right,
    h.shape]

/-- Accepted instructions commute at different indices. -/
theorem SameLoop.comm {a b : BhInstruction} (h : SameLoop a b) (ha : a.isSystem = false)
    (hb : b.isSystem = false) (hca : bhIsConstant a.operand0 = false)
    (hcb : bhIsConstant b.operand0 = false) (hna : a.operand0.offsets.Nodup)
    (hnb : b.operand0.offsets.Nodup) (hta : ∀ v ∈ b.operands, Truthful a.operand0 v)
    (htb : ∀ v ∈ a.operands, Truthful b.operand0 v) {s t : List ℕ}
    (hs : s ∈ indices a.operand0.shape) (ht : t ∈ indices a.operand0.shape) (hst : s ≠ t) (m : Mem V) :
    stepAt I b t (stepAt I a s m) = stepAt I a s (stepAt I b t m) := by
  have hab : ∀ v ∈ b.operands, Disjoint (a.operand0.locAt s) (v.locAt t) := fun v hv =>
    locAt_disjoint (h.left v hv) (hta v hv) hca hna (h.shape_right v hv) hs ht hst
  have hba : ∀ v ∈ a.operands, Disjoint (b.operand0.locAt t) (v.locAt s) := fun v hv =>
    locAt_disjoint (h.right v hv) (htb v hv) hcb hnb
      (fun hc => (h.shape_left v hv hc).trans h.shape.symm) (h.shape.symm ▸ ht) (h.shape.symm ▸ hs)
      hst.symm
  refine Footprint.comm (stepAt_footprint_at I ha h.ewise_left s)
    (stepAt_footprint_at I hb h.ewise_right t) ?_ ?_ ?_ m
  · rw [Set.disjoint_left]
    rintro l hl ⟨v, hv, hlv⟩
    exact Set.disjoint_left.mp (hab v hv) hl hlv
  · exact hab _ (BhInstruction.operand0_mem (bhOperands_ne_zero_of_not_system hb))
  · rw [Set.disjoint_left]
    rintro l ⟨v, hv, hlv⟩ hl
    exact Set.disjoint_left.mp (hba v hv) hl hlv

/-- The fused loop nest of pairwise accepted instructions leaves the memory that the instructions
leave when each runs over its whole index space in turn. -/
theorem runFused_eq_runSequential (l : List BhInstruction)
    (hpair : l.Pairwise fun a b => fuseSameShape a b = true ∨ fuseSameShape b a = true)
    (hout : ∀ i ∈ l, i.isSystem = false →
      bhIsConstant i.operand0 = false ∧ i.operand0.offsets.Nodup)
    (htruth : ∀ i ∈ l, ∀ j ∈ l, ∀ u ∈ i.operands, ∀ v ∈ j.operands, Truthful u v) (m : Mem V) :
    runFused I l m = runSequential I l m := by
  rw [← runSequential_filter]
  unfold runFused
  have hmem : ∀ i ∈ l.filter (fun i => !i.isSystem), i ∈ l ∧ i.isSystem = false := by
    intro i hi
    simpa using List.mem_filter.mp hi
  have hbody : (l.filter fun i => !i.isSystem).Pairwise fun a b => SameLoop a b := by
    have hsub := hpair.sublist (List.filter_sublist (p := fun i => !i.isSystem) (l := l))
    refine hsub.imp_of_mem ?_
    intro a b ha hb h
    obtain ⟨hal, has⟩ := hmem a ha
    obtain ⟨hbl, hbs⟩ := hmem b hb
    rcases h with h | h
    · exact sameLoop_of_fuseSameShape has hbs (hout b hbl hbs).1 h
    · exact (sameLoop_of_fuseSameShape hbs has (hout a hal has).1 h).symm
  cases hl : l.filter (fun i => !i.isSystem) with
  | nil => rfl
  | cons i rest =>
    rw [hl] at hmem hbody
    have hspace : ∀ j ∈ i :: rest, indexSpace j = indexSpace i := by
      intro j hj
      rcases List.mem_cons.mp hj with rfl | hj'
      · rfl
      · exact ((List.pairwise_cons.mp hbody).1 j hj').indexSpace_eq (hmem i List.mem_cons_self).2
          (hmem j hj).2
    have hseq : runSequential I (i :: rest) m = (i :: rest).foldl
        (fun m j => (indexSpace i).foldl (fun m idx => stepAt I j idx m) m) m := by
      refine foldl_congr _ _ _ (fun j hj m => ?_) m
      rw [runInstr, hspace j hj]
    rw [hseq]
    refine foldl_interchange (fun j idx m => stepAt I j idx m) (i :: rest) (indexSpace i)
      (nodup_indexSpace i) (hbody.imp_of_mem ?_) m
    intro a b ha hb h s hs t ht hst m
    obtain ⟨hal, has⟩ := hmem a ha
    obtain ⟨hbl, hbs⟩ := hmem b hb
    have h0 : ∀ j : BhInstruction, j.isSystem = false → j.operand0 ∈ j.operands := fun j hj =>
      BhInstruction.operand0_mem (bhOperands_ne_zero_of_not_system hj)
    have hshape : indexSpace i = indices a.operand0.shape := by
      rw [← hspace a ha, indexSpace, kind_of_elementwise has h.ewise_left]
    rw [hshape] at hs ht
    exact h.comm I has hbs (hout a hal has).1 (hout b hbl hbs).1 (hout a hal has).2
      (hout b hbl hbs).2 (fun v hv => htruth a hal b hbl _ (h0 a has) v hv)
      (fun v hv => htruth b hbl a hal _ (h0 b hbs) v hv) hs ht hst m

end

/-- `y = x + 1; x = y * y; BH_FREE y` on two 2 x 2 arrays. -/
def squareInPlace : List BhInstruction :=
  let x : BhView := ⟨some ⟨0, .int64, 4⟩, 0, [⟨2, 2⟩, ⟨2, 1⟩]⟩
  let y : BhView := ⟨some ⟨1, .int64, 4⟩, 0, [⟨2, 2⟩, ⟨2, 1⟩]⟩
  let c : BhView := ⟨none, 0, []⟩
  [⟨.add, y, x, c, .int .int64 1⟩, ⟨.multiply, x, y, y, .int .int64 0⟩,
    ⟨.free, y, c, c, .int .int64 0⟩]

theorem runFused_squareInPlace :
    runFused intInterp squareInPlace (fun l => l.2) = runSequential intInterp squareInPlace (fun l => l.2) :=
  runFused_eq_runSequential intInterp squareInPlace (by decide) (by decide) (by decide) _

end Bohrium
