import Mathlib.Data.List.Perm.Basic
import Mathlib.Data.List.Nodup
import Mathlib.Data.Set.Lattice
import Mathlib.Order.CompletePartialOrder

/-! # Reordering steps that commute

A run is a left fold of a step function over a list. Two runs over permutations of one list agree
when every pair whose order differs commutes (`foldl_eq_of_perm`), and two nested loops may be
interchanged when steps of different outer and inner index commute (`foldl_interchange`). For steps
on a memory, commutation follows from disjoint footprints (`Footprint.comm`). -/
namespace Reorder
set_option autoImplicit false

variable {σ α β : Type*}

/-! ## Order in a list

`[a, b].Sublist l` says that `a` stands before `b` in `l`. -/

theorem pair_sublist_cons {a b x : α} {l : List α} :
    [a, b].Sublist (x :: l) ↔ [a, b].Sublist l ∨ (a = x ∧ b ∈ l) := by
  rw [List.sublist_cons_iff]
  constructor
  · rintro (h | ⟨r, hr, h⟩)
    · exact Or.inl h
    · obtain ⟨rfl, rfl⟩ := List.cons.inj hr
      exact Or.inr ⟨rfl, List.singleton_sublist.mp h⟩
  · rintro (h | ⟨rfl, h⟩)
    · exact Or.inl h
    · exact Or.inr ⟨[b], rfl, List.singleton_sublist.mpr h⟩

theorem not_pair_sublist_swap {a b : α} {l : List α} (hnd : l.Nodup) (h : [a, b].Sublist l) :
    ¬ [b, a].Sublist l := by
  induction l with
  | nil => cases h
  | cons x l ih =>
    obtain ⟨hx, hl⟩ := List.nodup_cons.mp hnd
    rw [pair_sublist_cons] at h ⊢
    rintro (h' | ⟨rfl, ha⟩)
    · rcases h with h | ⟨rfl, _⟩
      · exact ih hl h h'
      · exact hx (h'.subset (by simp))
    · rcases h with h | ⟨rfl, hb⟩
      · exact hx (h.subset (by simp))
      · exact hx hb

theorem pair_sublist_trans {a b c : α} {l : List α} (hnd : l.Nodup) (hab : [a, b].Sublist l)
    (hbc : [b, c].Sublist l) : [a, c].Sublist l := by
  induction l with
  | nil => cases hab
  | cons x l ih =>
    obtain ⟨hx, hl⟩ := List.nodup_cons.mp hnd
    rw [pair_sublist_cons] at hab hbc ⊢
    rcases hab with hab | ⟨rfl, hb⟩
    · rcases hbc with hbc | ⟨rfl, _⟩
      · exact Or.inl (ih hl hab hbc)
      · exact absurd (hab.subset (by simp)) hx
    · rcases hbc with hbc | ⟨_, hc⟩
      · exact Or.inr ⟨rfl, hbc.subset (by simp)⟩
      · exact Or.inr ⟨rfl, hc⟩

/-! ## Folds -/

/-- A step that commutes with every step of a run may be taken before it. -/
theorem foldl_comm (f : σ → α → σ) (g : σ → σ) (l : List α)
    (h : ∀ a ∈ l, ∀ s, f (g s) a = g (f s a)) (s : σ) : l.foldl f (g s) = g (l.foldl f s) := by
  induction l generalizing s with
  | nil => rfl
  | cons a l ih =>
    rw [List.foldl_cons, List.foldl_cons, h a List.mem_cons_self]
    exact ih (fun b hb => h b (List.mem_cons_of_mem a hb)) (f s a)

theorem foldl_congr (f g : σ → α → σ) (l : List α) (h : ∀ a ∈ l, ∀ s, f s a = g s a) (s : σ) :
    l.foldl f s = l.foldl g s := by
  induction l generalizing s with
  | nil => rfl
  | cons a l ih =>
    rw [List.foldl_cons, List.foldl_cons, h a List.mem_cons_self]
    exact ih (fun b hb => h b (List.mem_cons_of_mem a hb)) _

/-- Two orders of the same steps lead to one state if every two steps whose order differs commute. -/
theorem foldl_eq_of_perm (f : σ → α → σ) {l₁ l₂ : List α} (hp : l₁.Perm l₂) (hnd : l₁.Nodup)
    (h : ∀ a b, [a, b].Sublist l₁ → [b, a].Sublist l₂ → ∀ s, f (f s a) b = f (f s b) a) (s : σ) :
    l₁.foldl f s = l₂.foldl f s := by
  induction l₁ generalizing l₂ s with
  | nil => rw [List.nil_perm.mp hp]
  | cons x l ih =>
    obtain ⟨pre, post, rfl⟩ := List.append_of_mem (hp.mem_iff.mp List.mem_cons_self)
    have hrest : l.Perm (pre ++ post) :=
      (hp.trans List.perm_middle).cons_inv
    obtain ⟨hx, hl⟩ := List.nodup_cons.mp hnd
    -- everything in front of `x` in the second order comes after it in the first
    have hmove : ∀ y ∈ pre, ∀ s, f (f s x) y = f (f s y) x := by
      intro y hy s
      have hyl : y ∈ l := hrest.mem_iff.mpr (List.mem_append_left post hy)
      refine h x y (List.cons_sublist_cons.mpr (List.singleton_sublist.mpr hyl)) ?_ s
      exact List.Sublist.append (List.singleton_sublist.mpr hy)
        (List.singleton_sublist.mpr (List.mem_cons_self (l := post)))
    have hstep : (pre ++ x :: post).foldl f s = (pre ++ post).foldl f (f s x) := by
      rw [List.foldl_append, List.foldl_append, List.foldl_cons]
      exact congrArg (post.foldl f) (foldl_comm f (fun s => f s x) pre hmove s).symm
    rw [List.foldl_cons, hstep]
    refine ih hrest hl (fun a b hab hba => h a b (hab.cons x) ?_) (f s x)
    exact hba.trans (List.Sublist.append (List.Sublist.refl pre) (List.sublist_cons_self x post))

/-- Loop interchange: running the outer list for each inner index, instead of the inner list for
each outer one, when steps of different outer and different inner index commute. -/
theorem foldl_interchange (step : α → β → σ → σ) (as : List α) (bs : List β) (hnd : bs.Nodup)
    (h : as.Pairwise fun a a' => ∀ b ∈ bs, ∀ b' ∈ bs, b ≠ b' → ∀ s,
      step a' b' (step a b s) = step a b (step a' b' s)) (s : σ) :
    bs.foldl (fun s b => as.foldl (fun s a => step a b s) s) s =
      as.foldl (fun s a => bs.foldl (fun s b => step a b s) s) s := by
  induction as generalizing s with
  | nil => induction bs with
    | nil => rfl
    | cons b bs ih =>
      exact ih (List.nodup_cons.mp hnd).2 (by simp)
  | cons a as ih =>
    obtain ⟨ha, has⟩ := List.pairwise_cons.mp h
    rw [List.foldl_cons, ← ih has]
    clear ih
    -- pull the steps of `a` in front of those of the other outer indices, one inner index at a time
    induction bs generalizing s with
    | nil => rfl
    | cons b bs ihb =>
      obtain ⟨hb, hbs⟩ := List.nodup_cons.mp hnd
      simp only [List.foldl_cons]
      have hrest : (a :: as).Pairwise fun a a' => ∀ x ∈ bs, ∀ y ∈ bs, x ≠ y → ∀ s,
          step a' y (step a x s) = step a x (step a' y s) :=
        h.imp fun h x hx y hy => h x (List.mem_cons_of_mem b hx) y (List.mem_cons_of_mem b hy)
      obtain ⟨hra, hras⟩ := List.pairwise_cons.mp hrest
      simp only [List.foldl_cons] at ihb
      rw [ihb hbs hrest _ hra hras]
      congr 1
      refine (foldl_comm (fun s x => step a x s) (fun s => as.foldl (fun s a => step a b s) s) bs
        (fun x hx s => ?_) (step a b s))
      refine (foldl_comm (fun s a => step a b s) (step a x) as (fun a' ha' s => ?_) s).symm
      exact ha a' ha' x (List.mem_cons_of_mem b hx) b List.mem_cons_self
        (fun e => hb (e ▸ hx)) s

/-! ## Memories -/

/-- A transformer of memories that changes only locations of `W`, to values determined by the
locations of `R`. -/
structure Footprint {Loc V : Type*} (f : (Loc → V) → Loc → V) (R W : Set Loc) : Prop where
  frame : ∀ m l, l ∉ W → f m l = m l
  reads : ∀ m m', (∀ l ∈ R, m l = m' l) → ∀ l ∈ W, f m l = f m' l

theorem Footprint.comp {Loc V : Type*} {f g : (Loc → V) → Loc → V} {R W : Set Loc}
    (hf : Footprint f R W) (hg : Footprint g R W) : Footprint (fun m => g (f m)) R W := by
  refine ⟨fun m k hk => ?_, fun m m' hm k hk => hg.reads (f m) (f m') (fun q hq => ?_) k hk⟩
  · exact (hg.frame (f m) k hk).trans (hf.frame m k hk)
  · by_cases hqW : q ∈ W
    · exact hf.reads m m' hm q hqW
    · rw [hf.frame m q hqW, hf.frame m' q hqW]
      exact hm q hq

/-- A run of steps with one footprint has that footprint. -/
theorem Footprint.foldl {Loc V ι : Type*} {f : ι → (Loc → V) → Loc → V} {R W : Set Loc} (l : List ι)
    (hWR : W ⊆ R) (h : ∀ i ∈ l, Footprint (f i) R W) :
    Footprint (fun m => l.foldl (fun m i => f i m) m) R W := by
  induction l with
  | nil => exact ⟨fun m l _ => rfl, fun m m' hm l hl => hm l (hWR hl)⟩
  | cons i l ih =>
    exact (h i List.mem_cons_self).comp (ih fun j hj => h j (List.mem_cons_of_mem i hj))

/-- A transformer with a parameter, at what the memory gives for the parameter. -/
theorem Footprint.diag {Loc V : Type*} {g : (Loc → V) → (Loc → V) → Loc → V} {R W : Set Loc}
    (h : ∀ p, Footprint (g p) R W) (hg : ∀ m m', (∀ l ∈ R, m l = m' l) → g m = g m') :
    Footprint (fun m => g m m) R W := by
  refine ⟨fun m => (h m).frame m, fun m m' hm l hl => ?_⟩
  show g m m l = g m' m' l
  rw [hg m m' hm]
  exact (h m').reads m m' hm l hl

/-- Transformers commute when neither writes what the other reads or writes. -/
theorem Footprint.comm {Loc V : Type*} {f g : (Loc → V) → Loc → V} {R W R' W' : Set Loc}
    (hf : Footprint f R W) (hg : Footprint g R' W') (hWR : Disjoint W R') (hWW : Disjoint W W')
    (hRW : Disjoint R W') (m : Loc → V) : g (f m) = f (g m) := by
  funext l
  by_cases hl : l ∈ W
  · have hl' : l ∉ W' := Set.disjoint_left.mp hWW hl
    rw [hg.frame _ l hl']
    refine hf.reads _ _ (fun k hk => ?_) l hl
    rw [hg.frame _ k (Set.disjoint_left.mp hRW hk)]
  · rw [hf.frame _ l hl]
    by_cases hl' : l ∈ W'
    · refine hg.reads _ _ (fun k hk => ?_) l hl'
      rw [hf.frame _ k (Set.disjoint_right.mp hWR hk)]
    · rw [hg.frame _ l hl', hg.frame _ l hl', hf.frame _ l hl]

end Reorder
