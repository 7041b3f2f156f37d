import Bohrium.Core.View
import Bohrium.Library.Normal

/-! # Simplified views

`bh_view_simplify` leaves a normal layout, so comparing simplified views compares what they address,
element by element, and no view of the same elements has fewer dimensions. A view of one element keeps
its last dimension. -/
namespace Bohrium
open Strided
set_option autoImplicit false

/-! ## The result is normal -/

theorem skipOnes_cons (d : Dim) (ds : List Dim) :
    ∃ e es, skipOnes (d :: ds) = e :: es ∧ (e.shape = 1 → es = []) ∧ es.length ≤ ds.length ∧
      ∀ c ∈ e :: es, c ∈ d :: ds := by
  induction ds generalizing d with
  | nil => exact ⟨d, [], rfl, fun _ => rfl, le_rfl, fun c hc => hc⟩
  | cons f ds ih =>
    rw [skipOnes]
    split_ifs with h
    · obtain ⟨e, es, heq, hone, hlen, hmem⟩ := ih f
      refine ⟨e, es, heq, hone, hlen.trans (Nat.le_succ _), fun c hc => ?_⟩
      exact List.mem_cons_of_mem _ (hmem c hc)
    · exact ⟨d, f :: ds, rfl, fun h1 => absurd h1 h, le_rfl, fun c hc => hc⟩

theorem normal_simplifyLoop {fin : List Dim} {cur : Dim} {ds : List Dim} (h : Normal (fin ++ [cur]))
    (hpos : ∀ d ∈ ds, d.shape ≠ 0) : Normal (simplifyLoop fin cur ds) := by
  induction ds generalizing fin cur with
  | nil =>
    rw [simplifyLoop, if_pos (Or.inr (h.long cur (by simp)))]
    exact h
  | cons d ds ih =>
    rw [List.forall_mem_cons] at hpos
    rw [simplifyLoop, if_neg hpos.1]
    split_ifs with h1 hm
    · exact ih h hpos.2
    · exact ih (h.merge (by omega) hm) hpos.2
    · exact ih (h.snoc (by omega) hm) hpos.2

theorem simplifyLoop_eq_self {fin : List Dim} {cur : Dim} {ds : List Dim} (h : Normal (fin ++ cur :: ds)) :
    simplifyLoop fin cur ds = fin ++ cur :: ds := by
  induction ds generalizing fin cur with
  | nil => rw [simplifyLoop, if_pos (Or.inr (h.long cur (by simp)))]
  | cons d ds ih =>
    have hd := h.long d (by simp)
    have hne : (d.shape : ℤ) * d.stride ≠ cur.stride :=
      (List.isChain_cons_cons.mp (List.isChain_append.mp h.apart).2.1).1
    rw [simplifyLoop, if_neg (by omega), if_neg (by omega), if_neg hne, ih (by simpa using h)]
    simp

theorem length_simplifyLoop (fin : List Dim) (cur : Dim) (ds : List Dim) :
    (simplifyLoop fin cur ds).length ≤ fin.length + ds.length + 1 := by
  induction ds generalizing fin cur with
  | nil =>
    rw [simplifyLoop]
    split_ifs <;> simp
  | cons d ds ih =>
    rw [simplifyLoop, List.length_cons]
    split_ifs
    · simp
    · exact (ih fin cur).trans (by omega)
    · exact (ih fin _).trans (by omega)
    · exact (ih _ d).trans (by simp; omega)

/-! ## The canonical form -/

theorem shape_pos {v : BhView} (h : 0 < bhNelements v) : ∀ d ∈ v.dims, 0 < d.shape := by
  intro d hd
  apply Nat.pos_of_ne_zero
  intro hz
  rw [bhNelements, BhView.shape, List.prod_eq_zero (List.mem_map.mpr ⟨d, hd, hz⟩)] at h
  exact lt_irrefl 0 h

/-- Two elements or more: the result is normal. One element: the result has one dimension, of length
one, or none. -/
theorem bhViewSimplify_cases {v : BhView} (h : 0 < bhNelements v) :
    (2 ≤ bhNelements v ∧ Normal (bhViewSimplify v).dims) ∨
      (bhNelements v = 1 ∧ bhViewSimplify (bhViewSimplify v) = bhViewSimplify v) := by
  obtain ⟨base, start, dims⟩ := v
  cases dims with
  | nil => exact Or.inr ⟨rfl, rfl⟩
  | cons d ds =>
    obtain ⟨e, es, heq, hone, _, hmem⟩ := skipOnes_cons d ds
    have hpos : ∀ c ∈ d :: ds, c.shape ≠ 0 := fun c hc => (shape_pos h c hc).ne'
    have hcount : bhNelements ⟨base, start, d :: ds⟩ = ((e :: es).map Dim.shape).prod := by
      rw [← length_offsets, BhView.offsets, ← offsets_skipOnes, heq, offsets_length]
    have hsimp : bhViewSimplify ⟨base, start, d :: ds⟩ = ⟨base, start, simplifyLoop [] e es⟩ := by
      simp only [bhViewSimplify, heq]
    rw [hcount, hsimp]
    by_cases h1 : e.shape = 1
    · rw [hone h1]
      exact Or.inr ⟨by simp [h1], rfl⟩
    · have he : 1 < e.shape := by
        have := hpos e (hmem e List.mem_cons_self)
        omega
      refine Or.inl ⟨?_, normal_simplifyLoop ⟨by simpa using he, List.isChain_singleton e⟩ fun c hc =>
        hpos c (hmem c (List.mem_cons_of_mem _ hc))⟩
      rw [List.map_cons, List.prod_cons]
      have hrest : 0 < (es.map Dim.shape).prod := by
        apply Nat.pos_of_ne_zero
        intro hz
        rw [hcount, List.map_cons, List.prod_cons, hz, Nat.mul_zero] at h
        exact lt_irrefl 0 h
      exact he.trans_le (Nat.le_mul_of_pos_right _ hrest)

theorem bhViewSimplify_eq_self {v : BhView} (h : Normal v.dims) : bhViewSimplify v = v := by
  obtain ⟨base, start, dims⟩ := v
  cases dims with
  | nil => rfl
  | cons d ds =>
    have hd : d.shape ≠ 1 := by
      have := h.long d List.mem_cons_self
      omega
    have hskip : skipOnes (d :: ds) = d :: ds := by
      cases ds with
      | nil => rfl
      | cons e ds => rw [skipOnes, if_neg hd]
    simp only [bhViewSimplify, hskip]
    rw [simplifyLoop_eq_self h, List.nil_append]

theorem start_bhViewSimplify (v : BhView) : (bhViewSimplify v).start = v.start := by
  unfold bhViewSimplify
  split <;> rfl

theorem ndim_bhViewSimplify (v : BhView) : (bhViewSimplify v).ndim ≤ v.ndim := by
  obtain ⟨base, start, dims⟩ := v
  cases dims with
  | nil => exact le_rfl
  | cons d ds =>
    obtain ⟨e, es, heq, _, hlen, _⟩ := skipOnes_cons d ds
    simp only [bhViewSimplify, heq, BhView.ndim, List.length_cons]
    exact (length_simplifyLoop [] e es).trans (by simpa using hlen)

theorem bhViewSimplify_idem {v : BhView} (h : 0 < bhNelements v) :
    bhViewSimplify (bhViewSimplify v) = bhViewSimplify v := by
  rcases bhViewSimplify_cases h with ⟨_, hn⟩ | ⟨_, hone⟩
  · exact bhViewSimplify_eq_self hn
  · exact hone

theorem start_eq_of_offsets {a b : BhView} (h : 0 < bhNelements a) (heq : a.offsets = b.offsets) :
    a.start = b.start := by
  have hb : 0 < bhNelements b := by rwa [← length_offsets, ← heq, length_offsets]
  have ha := @getElem?_zero_offsets a.start a.dims (shape_pos h)
  have hstart : b.offsets[0]? = some b.start := getElem?_zero_offsets (shape_pos hb)
  rw [← heq] at hstart
  exact Option.some.inj (ha.symm.trans hstart)

theorem bhViewSimplify_eq_iff {a b : BhView} (ha : 2 ≤ bhNelements a) :
    bhViewSimplify a = bhViewSimplify b ↔ a.base = b.base ∧ a.offsets = b.offsets := by
  constructor
  · intro h
    rw [← base_bhViewSimplify a, ← offsets_bhViewSimplify a, h, base_bhViewSimplify, offsets_bhViewSimplify]
    exact ⟨rfl, rfl⟩
  · rintro ⟨hbase, hoff⟩
    have hb : bhNelements b = bhNelements a := by rw [← length_offsets, ← hoff, length_offsets]
    have hna : Normal (bhViewSimplify a).dims := by
      rcases bhViewSimplify_cases (show 0 < bhNelements a by omega) with h | h
      · exact h.2
      · omega
    have hnb : Normal (bhViewSimplify b).dims := by
      rcases bhViewSimplify_cases (show 0 < bhNelements b by omega) with h | h
      · exact h.2
      · omega
    have hstart := start_eq_of_offsets (by omega) hoff
    have hdims : (bhViewSimplify a).dims = (bhViewSimplify b).dims := by
      apply hna.ext hnb
      show Strided.offsets a.start _ = _
      have h := hoff
      rw [← offsets_bhViewSimplify a, ← offsets_bhViewSimplify b, BhView.offsets, BhView.offsets,
        start_bhViewSimplify, start_bhViewSimplify, ← hstart] at h
      exact h
    have hbases : (bhViewSimplify a).base = (bhViewSimplify b).base := by
      rw [base_bhViewSimplify, base_bhViewSimplify, hbase]
    have hstarts : (bhViewSimplify a).start = (bhViewSimplify b).start := by
      rw [start_bhViewSimplify, start_bhViewSimplify, hstart]
    rcases hsa : bhViewSimplify a with ⟨ba, ta, da⟩
    rcases hsb : bhViewSimplify b with ⟨bb, tb, db⟩
    rw [hsa, hsb] at hdims hbases hstarts
    exact BhView.mk.injEq .. ▸ ⟨hbases, hstarts, hdims⟩

/-- Simplification keeps what a view addresses and is idempotent; the simplified views of two arrays of
two elements or more are equal exactly when the arrays address the same elements in the same order, and
they have the fewest dimensions. A constant is aligned with every operand. -/
theorem bhViewSimplify_canonical :
    (∀ v : BhView, 0 < bhNelements v →
      (bhViewSimplify v).base = v.base ∧ (bhViewSimplify v).start = v.start ∧
        (bhViewSimplify v).offsets = v.offsets ∧ bhViewSimplify (bhViewSimplify v) = bhViewSimplify v) ∧
    (∀ a b : BhView, 2 ≤ bhNelements a → 2 ≤ bhNelements b →
      (bhViewAligned a b = true ↔ bhIsConstant a = true ∨ bhIsConstant b = true ∨
        a.base = b.base ∧ a.offsets = b.offsets)) ∧
    ∀ a b : BhView, 2 ≤ bhNelements a → b.offsets = a.offsets → (bhViewSimplify a).ndim ≤ b.ndim := by
  refine ⟨fun v hv => ⟨base_bhViewSimplify v, start_bhViewSimplify v, offsets_bhViewSimplify v,
    bhViewSimplify_idem hv⟩, fun a b ha _ => ?_, fun a b ha hoff => ?_⟩
  · unfold bhViewAligned
    rw [Bool.or_eq_true, Bool.or_eq_true, beq_iff_eq, bhViewSimplify_eq_iff ha, or_assoc]
  · -- the base plays no part in the dimensions
    have hb : bhViewSimplify a = bhViewSimplify { b with base := a.base } :=
      (bhViewSimplify_eq_iff ha).mpr ⟨rfl, hoff.symm⟩
    rw [hb]
    exact ndim_bhViewSimplify { b with base := a.base }

theorem bhViewSimplify_canonical_block :
    bhViewAligned ⟨some ⟨0, .int64, 6⟩, 0, [⟨2, 3⟩, ⟨3, 1⟩]⟩ ⟨some ⟨0, .int64, 6⟩, 0, [⟨6, 1⟩]⟩ = true ∧
      (bhViewSimplify ⟨some ⟨0, .int64, 6⟩, 0, [⟨2, 3⟩, ⟨3, 1⟩]⟩).ndim ≤ 1 := by
  obtain ⟨_, haligned, hndim⟩ := bhViewSimplify_canonical
  exact ⟨(haligned _ _ (by decide) (by decide)).mpr (Or.inr (Or.inr (by decide))),
    hndim _ ⟨some ⟨0, .int64, 6⟩, 0, [⟨6, 1⟩]⟩ (by decide) (by decide)⟩

/-- A constant, which has no base, is aligned with an array. -/
theorem not_aligned_iff_offsets : ¬ ∀ a b : BhView, 2 ≤ bhNelements a → 2 ≤ bhNelements b →
    (bhViewAligned a b = true ↔ a.base = b.base ∧ a.offsets = b.offsets) := by
  intro h
  have hcon := (h ⟨none, 0, [⟨2, 1⟩]⟩ ⟨some ⟨0, .int64, 2⟩, 0, [⟨2, 1⟩]⟩ (by decide) (by decide)).mp (by decide)
  exact absurd hcon.1 (by decide)

end Bohrium
