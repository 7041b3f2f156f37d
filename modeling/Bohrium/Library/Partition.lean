import Mathlib.Algebra.BigOperators.Group.Finset.Sigma
import Mathlib.Algebra.Order.BigOperators.Group.Finset
import Mathlib.Data.Finset.Union
import Mathlib.Logic.Relation

/-! # Partitions by a map, and what they cost

A map `f` parts a finite set into the blocks where it is constant. If the cost of a set is at most
the costs of two disjoint parts of it together, a coarser partition costs no more than a finer one. -/
namespace Partition
set_option autoImplicit false

variable {ι κ μ : Type} [DecidableEq κ] [DecidableEq μ]

/-- The elements of `s` that `f` sends to `c`. -/
def block (s : Finset ι) (f : ι → κ) (c : κ) : Finset ι := s.filter (f · = c)

theorem mem_block {s : Finset ι} {f : ι → κ} {c : κ} {x : ι} : x ∈ block s f c ↔ x ∈ s ∧ f x = c :=
  Finset.mem_filter

theorem disjoint_block {s : Finset ι} {f : ι → κ} {c d : κ} (hcd : c ≠ d) :
    Disjoint (block s f c) (block s f d) := by
  refine Finset.disjoint_left.mpr fun x hxc hxd => hcd ?_
  exact (mem_block.mp hxc).2.symm.trans (mem_block.mp hxd).2

variable [DecidableEq ι]

/-- The blocks together. -/
def cost (F : Finset ι → ℕ) (s : Finset ι) (f : ι → κ) : ℕ := ∑ c ∈ s.image f, F (block s f c)

/-- A set costs no more than two disjoint parts of it. -/
def Subadditive (F : Finset ι → ℕ) : Prop := ∀ s t, Disjoint s t → F (s ∪ t) ≤ F s + F t

variable {F : Finset ι → ℕ} {s : Finset ι} {f : ι → κ} {h : ι → μ}

theorem Subadditive.biUnion (hF : Subadditive F) (h0 : F ∅ = 0) (D : Finset μ) (B : μ → Finset ι)
    (hdisj : ∀ c ∈ D, ∀ d ∈ D, c ≠ d → Disjoint (B c) (B d)) : F (D.biUnion B) ≤ ∑ d ∈ D, F (B d) := by
  induction D using Finset.induction_on with
  | empty => exact h0.le
  | insert d D hd ih =>
    rw [Finset.biUnion_insert, Finset.sum_insert hd]
    have hapart : Disjoint (B d) (D.biUnion B) := by
      refine (Finset.disjoint_biUnion_right _ _ _).mpr fun c hc => ?_
      exact hdisj d (Finset.mem_insert_self d D) c (Finset.mem_insert_of_mem hc) fun e => hd (e ▸ hc)
    have hrest := ih fun c hc e he => hdisj c (Finset.mem_insert_of_mem hc) e (Finset.mem_insert_of_mem he)
    exact (hF _ _ hapart).trans (Nat.add_le_add_left hrest _)

/-- A block of the coarser partition is the union of the finer blocks in it. -/
theorem block_eq_biUnion (hfh : ∀ x ∈ s, ∀ y ∈ s, h x = h y → f x = f y) (c : κ) :
    block s f c = ((block s f c).image h).biUnion (block s h) := by
  ext x
  simp only [Finset.mem_biUnion, Finset.mem_image, mem_block]
  constructor
  · rintro ⟨hx, hfx⟩
    exact ⟨h x, ⟨x, ⟨hx, hfx⟩, rfl⟩, hx, rfl⟩
  · rintro ⟨_, ⟨y, ⟨hy, rfl⟩, rfl⟩, hx, hxy⟩
    exact ⟨hx, hfh x hx y hy hxy⟩

/-- The coarser partition costs no more. -/
theorem cost_le_of_coarser (hF : Subadditive F) (h0 : F ∅ = 0)
    (hfh : ∀ x ∈ s, ∀ y ∈ s, h x = h y → f x = f y) : cost F s f ≤ cost F s h := by
  have hblock : ∀ c ∈ s.image f, F (block s f c) ≤ ∑ d ∈ (block s f c).image h, F (block s h d) := by
    intro c _
    conv_lhs => rw [block_eq_biUnion hfh c]
    exact hF.biUnion h0 _ _ fun _ _ _ _ => disjoint_block
  have himages : (s.image f).biUnion (fun c => (block s f c).image h) = s.image h := by
    ext d
    simp only [Finset.mem_biUnion, Finset.mem_image, mem_block]
    constructor
    · rintro ⟨_, _, x, ⟨hx, _⟩, rfl⟩
      exact ⟨x, hx, rfl⟩
    · rintro ⟨x, hx, rfl⟩
      exact ⟨f x, ⟨x, hx, rfl⟩, x, ⟨hx, rfl⟩, rfl⟩
  -- a finer block lies in one coarser block only
  have hapart : ∀ c ∈ s.image f, ∀ e ∈ s.image f, c ≠ e →
      Disjoint ((block s f c).image h) ((block s f e).image h) := by
    intro c _ e _ hce
    refine Finset.disjoint_left.mpr fun d hdc hde => hce ?_
    obtain ⟨x, hx, rfl⟩ := Finset.mem_image.mp hdc
    obtain ⟨y, hy, hyx⟩ := Finset.mem_image.mp hde
    obtain ⟨hxs, rfl⟩ := mem_block.mp hx
    obtain ⟨hys, rfl⟩ := mem_block.mp hy
    exact hfh x hxs y hys hyx.symm
  calc cost F s f ≤ ∑ c ∈ s.image f, ∑ d ∈ (block s f c).image h, F (block s h d) := Finset.sum_le_sum hblock
    _ = ∑ d ∈ (s.image f).biUnion (fun c => (block s f c).image h), F (block s h d) :=
      (Finset.sum_biUnion hapart).symm
    _ = cost F s h := by rw [himages]; rfl

/-- Partitions with the same blocks cost the same. -/
theorem cost_congr (hF : Subadditive F) (h0 : F ∅ = 0)
    (hfh : ∀ x ∈ s, ∀ y ∈ s, f x = f y ↔ h x = h y) : cost F s f = cost F s h :=
  le_antisymm (cost_le_of_coarser hF h0 fun x hx y hy => (hfh x hx y hy).mpr)
    (cost_le_of_coarser hF h0 fun x hx y hy => (hfh x hx y hy).mp)

end Partition
