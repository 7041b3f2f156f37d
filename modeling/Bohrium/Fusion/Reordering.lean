import Bohrium.Semantics.Loop
import Mathlib.Data.List.Induction

/-! # Reordering instructions

Instructions without a dependency commute, and an order of a list that keeps every dependent pair
in place leaves the memory of the original order. Every fuser rests on this when it reorders. -/
namespace Bohrium
open Strided Reorder
set_option autoImplicit false

section
variable {V : Type}

/-- Run the instructions of a list in the order given by a list of indices. -/
def runOrder (exec : BhInstruction → Mem V → Mem V) (l : List BhInstruction) (order : List ℕ)
    (m : Mem V) : Mem V :=
  order.foldl (fun m k => match l[k]? with
    | none => m
    | some i => exec i m) m

theorem runOrder_range (exec : BhInstruction → Mem V → Mem V) (l : List BhInstruction) (m : Mem V) :
    runOrder exec l (List.range l.length) m = l.foldl (fun m i => exec i m) m := by
  unfold runOrder
  induction l using List.reverseRecOn with
  | nil => rfl
  | append_singleton l i ih =>
    have hprefix : ∀ s : Mem V, (List.range l.length).foldl
        (fun m k => match (l ++ [i])[k]? with
          | none => m
          | some i => exec i m) s =
        (List.range l.length).foldl (fun m k => match l[k]? with
          | none => m
          | some i => exec i m) s := by
      refine foldl_congr _ _ _ fun k hk s => ?_
      rw [List.getElem?_append_left (List.mem_range.mp hk)]
    rw [List.length_append, List.length_singleton, List.range_succ, List.foldl_append, hprefix, ih,
      List.foldl_append]
    simp

/-- What one of two independent instructions writes, the other does not touch. -/
theorem disjoint_written_touched {a b : BhInstruction} (h : bhInstrDependency a b = false)
    (ht : ∀ u ∈ a.operands, ∀ v ∈ b.operands, Truthful u v) : Disjoint a.written b.touched := by
  rw [Set.disjoint_left]
  rintro l ⟨hna, hla⟩ ⟨v, hv, hlv⟩
  have hnb : bhOperands b.opcode ≠ 0 := by
    intro h0
    rw [BhInstruction.operands_of_nop_zero h0] at hv
    cases hv
  have hdis := (bhInstrDependency_eq_false hna hnb h).2 v hv
  have hover := ht _ (BhInstruction.operand0_mem hna) v hv hdis
  exact Set.disjoint_left.mp (BhView.disjoint_locs hover) hla hlv

/-- Independent instructions commute. -/
theorem independent_comm {exec : BhInstruction → Mem V → Mem V} {a b : BhInstruction}
    (ha : Footprint (exec a) a.touched a.written) (hb : Footprint (exec b) b.touched b.written)
    (h : bhInstrDependency a b = false) (hab : ∀ u ∈ a.operands, ∀ v ∈ b.operands, Truthful u v)
    (hba : ∀ u ∈ b.operands, ∀ v ∈ a.operands, Truthful u v) (m : Mem V) :
    exec b (exec a m) = exec a (exec b m) := by
  have hWR := disjoint_written_touched h hab
  have hRW := disjoint_written_touched (bhInstrDependency_comm a b ▸ h) hba
  exact Footprint.comm ha hb hWR (hWR.mono_right b.written_subset_touched) hRW.symm m

/-- Any order that keeps dependent instructions in place leaves the memory of the original order. -/
theorem runOrder_eq_of_dependency_order (exec : BhInstruction → Mem V → Mem V)
    (l : List BhInstruction) (hfoot : ∀ i ∈ l, Footprint (exec i) i.touched i.written)
    (htruth : ∀ i ∈ l, ∀ j ∈ l, ∀ u ∈ i.operands, ∀ v ∈ j.operands, Truthful u v) (order : List ℕ)
    (hperm : order.Perm (List.range l.length))
    (hdep : ∀ i j, i < j → dependencyAt l i j = true → [i, j].Sublist order) (m : Mem V) :
    runOrder exec l order m = l.foldl (fun m i => exec i m) m := by
  rw [← runOrder_range]
  unfold runOrder
  refine (foldl_eq_of_perm _ hperm.symm List.nodup_range (fun i j hij hji s => ?_) m).symm
  have hlt : i < j := by
    have hp : (List.range l.length).Pairwise (· < ·) := List.pairwise_lt_range
    exact List.rel_of_pairwise_cons (hp.sublist hij) List.mem_cons_self
  have hlen : j < l.length := List.mem_range.mp (hij.subset (by simp))
  obtain ⟨a, ha⟩ : ∃ a, l[i]? = some a := ⟨_, List.getElem?_eq_getElem (hlt.trans hlen)⟩
  obtain ⟨b, hb⟩ : ∃ b, l[j]? = some b := ⟨_, List.getElem?_eq_getElem hlen⟩
  have hal := List.mem_of_getElem? ha
  have hbl := List.mem_of_getElem? hb
  have hind : bhInstrDependency a b = false := by
    by_contra hd
    have hsub := hdep i j hlt (by simpa [dependencyAt_of_getElem? ha hb] using hd)
    -- a duplicate-free order cannot have both `i` before `j` and `j` before `i`
    have hnd : order.Nodup := hperm.nodup_iff.mpr List.nodup_range
    exact not_pair_sublist_swap hnd hsub hji
  simp only [ha, hb]
  exact independent_comm (hfoot a hal) (hfoot b hbl) hind (htruth a hal b hbl) (htruth b hbl a hal) s

end

/-- `y = x + 1; z = x * x; w[0] = sum(y); BH_FREE y`: the second instruction may move. -/
def sumOfShifted : List BhInstruction :=
  let x : BhView := ⟨some ⟨0, .int64, 4⟩, 0, [⟨4, 1⟩]⟩
  let y : BhView := ⟨some ⟨1, .int64, 4⟩, 0, [⟨4, 1⟩]⟩
  let z : BhView := ⟨some ⟨2, .int64, 4⟩, 0, [⟨4, 1⟩]⟩
  let w : BhView := ⟨some ⟨3, .int64, 1⟩, 0, [⟨1, 1⟩]⟩
  let c : BhView := ⟨none, 0, []⟩
  [⟨.add, y, x, c, .int .int64 1⟩, ⟨.multiply, z, x, x, .int .int64 0⟩,
    ⟨.addReduce, w, y, c, .int .int64 0⟩, ⟨.free, y, c, c, .int .int64 0⟩]

theorem runOrder_sumOfShifted :
    runOrder (runInstr intInterp) sumOfShifted [0, 2, 3, 1] (fun l => l.2) =
      sumOfShifted.foldl (fun m i => runInstr intInterp i m) (fun l => l.2) := by
  have hwf : ∀ i ∈ sumOfShifted, i.WellFormed := by decide
  have hdep : ∀ i < 4, ∀ j < 4, i < j → dependencyAt sumOfShifted i j = true →
      [i, j].Sublist [0, 2, 3, 1] := by decide
  refine runOrder_eq_of_dependency_order (runInstr intInterp) sumOfShifted
    (fun i hi => runInstr_footprint intInterp (hwf i hi)) (by decide) [0, 2, 3, 1] (by decide) ?_ _
  intro i j hij hd
  obtain ⟨hi, hj⟩ := dependencyAt_lt_length hd
  exact hdep i hi j hj hij hd

end Bohrium
