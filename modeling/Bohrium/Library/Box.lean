import Bohrium.Library.Strided

/-! # Boxes of index tuples

A box is the set of index tuples between a lowest and a highest corner. A point inside a box cuts it
into `2 ^ n` boxes, one for each of its corners, and tilings of these are a tiling of the whole. -/
namespace Box
open Strided
set_option autoImplicit false

/-- The index tuple lies in the box from `lo` up to `hi`. -/
def Mem : List ℕ → List ℕ → List ℕ → Prop
  | l :: lo, h :: hi, i :: idx => (l ≤ i ∧ i < h) ∧ Mem lo hi idx
  | [], [], [] => True
  | _, _, _ => False

instance decidableMem : (lo hi idx : List ℕ) → Decidable (Mem lo hi idx)
  | _ :: lo, _ :: hi, _ :: idx => @instDecidableAnd _ _ _ (decidableMem lo hi idx)
  | [], [], [] => isTrue trivial
  | [], [], _ :: _ => isFalse id
  | [], _ :: _, [] => isFalse id
  | [], _ :: _, _ :: _ => isFalse id
  | _ :: _, [], [] => isFalse id
  | _ :: _, [], _ :: _ => isFalse id
  | _ :: _, _ :: _, [] => isFalse id

/-- Take `b` in the dimensions where the corner is `1`, and `a` in the others. -/
def pick : List ℕ → List ℕ → List ℕ → List ℕ
  | c :: cs, a :: as, b :: bs => (if c = 1 then b else a) :: pick cs as bs
  | _, _, _ => []

/-- The corners of a box with `n` dimensions, the last dimension first. -/
def corners (n : ℕ) : List (List ℕ) := indices (List.replicate n 2)

/-- The sum of the edges of a box. -/
def extent (lo hi : List ℕ) : ℕ := (List.zipWith (· - ·) hi lo).sum

theorem mem_indices_iff {shape idx : List ℕ} :
    idx ∈ indices shape ↔ Mem (List.replicate shape.length 0) shape idx := by
  rw [mem_indices]
  induction shape generalizing idx with
  | nil => cases idx <;> simp [Mem]
  | cons n shape ih =>
    cases idx with
    | nil => simp [Mem, List.replicate_succ]
    | cons i idx => simp [Mem, List.replicate_succ, ih]

/-! ## Points and lengths -/

section
variable {lo hi shape xs ys zs idx : List ℕ}

theorem forall₂_le_trans (h₁ : List.Forall₂ (· ≤ ·) xs ys) (h₂ : List.Forall₂ (· ≤ ·) ys zs) :
    List.Forall₂ (· ≤ ·) xs zs := by
  induction h₁ generalizing zs with
  | nil => exact h₂
  | cons h₁ _ ih =>
    cases h₂ with
    | cons h₂ hrest => exact List.Forall₂.cons (h₁.trans h₂) (ih hrest)

theorem forall₂_lt_of_lt_of_le (h₁ : List.Forall₂ (· < ·) xs ys) (h₂ : List.Forall₂ (· ≤ ·) ys zs) :
    List.Forall₂ (· < ·) xs zs := by
  induction h₁ generalizing zs with
  | nil =>
    cases h₂
    exact List.Forall₂.nil
  | cons h₁ _ ih =>
    cases h₂ with
    | cons h₂ hrest => exact List.Forall₂.cons (Nat.lt_of_lt_of_le h₁ h₂) (ih hrest)

theorem zipWith_min_le (h : xs.length = ys.length) :
    List.Forall₂ (· ≤ ·) (List.zipWith min xs ys) xs ∧ List.Forall₂ (· ≤ ·) (List.zipWith min xs ys) ys := by
  induction xs generalizing ys with
  | nil =>
    cases ys with
    | nil => exact ⟨List.Forall₂.nil, List.Forall₂.nil⟩
    | cons y ys => cases h
  | cons x xs ih =>
    cases ys with
    | nil => cases h
    | cons y ys =>
      obtain ⟨hl, hr⟩ := ih (by simpa using h)
      exact ⟨List.Forall₂.cons (min_le_left x y) hl, List.Forall₂.cons (min_le_right x y) hr⟩

theorem one_le_zipWith_min (hx : ∀ x ∈ xs, 1 ≤ x) (hy : ∀ y ∈ ys, 1 ≤ y) :
    ∀ z ∈ List.zipWith min xs ys, 1 ≤ z := by
  induction xs generalizing ys with
  | nil => simp
  | cons x xs ih =>
    cases ys with
    | nil => simp
    | cons y ys =>
      rw [List.zipWith_cons_cons, List.forall_mem_cons]
      rw [List.forall_mem_cons] at hx hy
      exact ⟨le_min hx.1 hy.1, ih hx.2 hy.2⟩

/-- A box that the search does not skip. -/
theorem forall₂_lt_of_not_any (hlen : lo.length = hi.length)
    (h : ¬ (List.zipWith (fun l h => decide (h ≤ l)) lo hi).any id = true) :
    List.Forall₂ (· < ·) lo hi := by
  induction lo generalizing hi with
  | nil =>
    cases hi with
    | nil => exact List.Forall₂.nil
    | cons x hi => cases hlen
  | cons l lo ih =>
    cases hi with
    | nil => cases hlen
    | cons x hi =>
      simp only [List.zipWith_cons_cons, List.any_cons, id_eq, Bool.or_eq_true, decide_eq_true_eq,
        not_or, Nat.not_le] at h
      exact List.Forall₂.cons h.1 (ih (by simpa using hlen) h.2)

/-- Lengths that are left in a box end inside it. -/
theorem zipWith_add_bounds (hlt : List.Forall₂ (· < ·) lo hi) (h1 : ∀ n ∈ shape, 1 ≤ n)
    (hle : List.Forall₂ (· ≤ ·) shape (List.zipWith (· - ·) hi lo)) :
    List.Forall₂ (· < ·) lo (List.zipWith (· + ·) lo shape) ∧
      List.Forall₂ (· ≤ ·) (List.zipWith (· + ·) lo shape) hi := by
  induction hlt generalizing shape with
  | nil =>
    cases hle
    exact ⟨List.Forall₂.nil, List.Forall₂.nil⟩
  | cons hlt _ ih =>
    cases hle with
    | cons hle hrest =>
      rw [List.forall_mem_cons] at h1
      obtain ⟨hl, hr⟩ := ih h1.2 hrest
      dsimp only at hle
      refine ⟨List.Forall₂.cons ?_ hl, List.Forall₂.cons ?_ hr⟩ <;> dsimp only <;> omega

theorem one_le_zipWith_sub (hlt : List.Forall₂ (· < ·) lo hi) : ∀ m ∈ List.zipWith (· - ·) hi lo, 1 ≤ m := by
  induction hlt with
  | nil => simp
  | cons hlt _ ih =>
    rw [List.zipWith_cons_cons, List.forall_mem_cons]
    exact ⟨by omega, ih⟩

/-- The index tuples of a box are those of its shape, moved to its lowest corner. -/
theorem mem_iff_exists_add (hlen : lo.length = shape.length) :
    Mem lo (List.zipWith (· + ·) lo shape) idx ↔ ∃ i ∈ indices shape, idx = List.zipWith (· + ·) lo i := by
  induction lo generalizing shape idx with
  | nil =>
    cases shape with
    | nil => cases idx <;> simp [Mem, indices]
    | cons n shape => cases hlen
  | cons l lo ih =>
    cases shape with
    | nil => cases hlen
    | cons n shape =>
      have ih := fun idx => @ih shape idx (by simpa using hlen)
      constructor
      · intro h
        cases idx with
        | nil => cases h
        | cons x idx =>
          obtain ⟨⟨hl, hr⟩, hmem⟩ := h
          dsimp only at hr
          obtain ⟨i, hi, rfl⟩ := (ih idx).mp hmem
          refine ⟨(x - l) :: i, mem_indices.mpr (.cons (by omega) (mem_indices.mp hi)), ?_⟩
          rw [List.zipWith_cons_cons, Nat.add_sub_cancel' hl]
      · rintro ⟨i, hi, rfl⟩
        cases mem_indices.mp hi with
        | cons hj his =>
          refine ⟨⟨?_, ?_⟩, (ih _).mpr ⟨_, mem_indices.mpr his, rfl⟩⟩ <;> dsimp only <;> omega

end

/-- One coordinate of an index tuple apart from the others. -/
theorem mem_insertIdx {axis k : ℕ} {lo hi idx : List ℕ} (hlo : axis < lo.length) (hlen : lo.length = hi.length) :
    Mem lo hi (idx.insertIdx axis k) ↔
      (lo.getD axis 0 ≤ k ∧ k < hi.getD axis 0) ∧ Mem (lo.eraseIdx axis) (hi.eraseIdx axis) idx := by
  induction axis generalizing lo hi idx with
  | zero =>
    cases lo with
    | nil => cases hlo
    | cons l lo =>
      cases hi with
      | nil => cases hlen
      | cons h hi => rfl
  | succ axis ih =>
    cases lo with
    | nil => cases hlo
    | cons l lo =>
      cases hi with
      | nil => cases hlen
      | cons h hi =>
        cases idx with
        | nil => simp [Mem]
        | cons i idx =>
          have hrest := @ih lo hi idx (show axis < lo.length by simpa using hlo) (by simpa using hlen)
          simp only [List.insertIdx_succ_cons, Mem, List.eraseIdx_cons_succ, List.getD_cons_succ, hrest]
          exact and_left_comm

theorem eraseIdx_zipWith_add (xs ys : List ℕ) (axis : ℕ) :
    (List.zipWith (· + ·) xs ys).eraseIdx axis = List.zipWith (· + ·) (xs.eraseIdx axis) (ys.eraseIdx axis) := by
  induction xs generalizing ys axis with
  | nil => simp
  | cons x xs ih =>
    cases ys with
    | nil => simp
    | cons y ys =>
      cases axis with
      | zero => rfl
      | succ axis => simp [ih]

theorem dot_zipWith_add {ds : List Dim} {lo idx : List ℕ} (h₁ : ds.length = lo.length)
    (h₂ : ds.length = idx.length) : dot ds (List.zipWith (· + ·) lo idx) = dot ds lo + dot ds idx := by
  induction ds generalizing lo idx with
  | nil => simp [dot]
  | cons d ds ih =>
    cases lo with
    | nil => cases h₁
    | cons l lo =>
      cases idx with
      | nil => cases h₂
      | cons i idx =>
        simp only [List.length_cons, Nat.add_right_cancel_iff] at h₁ h₂
        simp only [List.zipWith_cons_cons, dot, ih h₁ h₂]
        push_cast
        ring

/-! ## Corners -/

theorem corners_succ (n : ℕ) : corners (n + 1) = (corners n).map (0 :: ·) ++ (corners n).map (1 :: ·) := by
  simp [corners, List.replicate_succ, indices, List.range_succ]

theorem mem_corners_succ {n : ℕ} {c : List ℕ} :
    c ∈ corners (n + 1) ↔ ∃ d ∈ corners n, c = 0 :: d ∨ c = 1 :: d := by
  rw [corners_succ]
  simp only [List.mem_append, List.mem_map]
  constructor
  · rintro (⟨d, hd, rfl⟩ | ⟨d, hd, rfl⟩)
    · exact ⟨d, hd, Or.inl rfl⟩
    · exact ⟨d, hd, Or.inr rfl⟩
  · rintro ⟨d, hd, rfl | rfl⟩
    · exact Or.inl ⟨d, hd, rfl⟩
    · exact Or.inr ⟨d, hd, rfl⟩

theorem corners_eq_cons (n : ℕ) : corners n = List.replicate n 0 :: (corners n).tail := by
  induction n with
  | zero => rfl
  | succ n ih =>
    rw [corners_succ, ih]
    rfl

section
variable {lo mid hi idx c c' : List ℕ}

theorem pick_zero (h : lo.length = mid.length) : pick (List.replicate lo.length 0) lo mid = lo := by
  induction lo generalizing mid with
  | nil => rfl
  | cons l lo ih =>
    cases mid with
    | nil => cases h
    | cons m mid => simpa [pick, List.replicate_succ] using ih (by simpa using h)

theorem length_pick (hc : c ∈ corners lo.length) (h : lo.length = mid.length) :
    (pick c lo mid).length = lo.length := by
  induction lo generalizing mid c with
  | nil => cases c <;> rfl
  | cons l lo ih =>
    cases mid with
    | nil => cases h
    | cons m mid =>
      obtain ⟨d, hd, rfl | rfl⟩ := mem_corners_succ.mp hc <;>
        simp [pick, ih hd (by simpa using h)]

/-- Every index tuple of a box lies in the box of one of its corners. -/
theorem mem_iff_exists_corner (h₁ : List.Forall₂ (· ≤ ·) lo mid) (h₂ : List.Forall₂ (· ≤ ·) mid hi) :
    Mem lo hi idx ↔ ∃ c ∈ corners lo.length, Mem (pick c lo mid) (pick c mid hi) idx := by
  induction h₁ generalizing hi idx with
  | nil =>
    cases h₂
    simp [corners, indices, pick]
  | @cons l m lo mid hlm h₁ ih =>
    cases h₂ with
    | @cons _ h _ hi hmh h₂ =>
      cases idx with
      | nil =>
        simp only [Mem, List.length_cons, false_iff, not_exists, not_and]
        intro c hc
        obtain ⟨d, _, rfl | rfl⟩ := mem_corners_succ.mp hc <;> simp [pick, Mem]
      | cons i idx =>
        have ih : Mem lo hi idx ↔ _ := ih h₂
        constructor
        · rintro ⟨⟨hli, hih⟩, hmem⟩
          obtain ⟨c, hc, hmem⟩ := ih.mp hmem
          by_cases hi : i < m
          · exact ⟨0 :: c, mem_corners_succ.mpr ⟨c, hc, Or.inl rfl⟩, ⟨hli, hi⟩, hmem⟩
          · exact ⟨1 :: c, mem_corners_succ.mpr ⟨c, hc, Or.inr rfl⟩, ⟨Nat.le_of_not_lt hi, hih⟩, hmem⟩
        · rintro ⟨c, hc, hmem⟩
          obtain ⟨d, hd, rfl | rfl⟩ := mem_corners_succ.mp hc
          · exact ⟨⟨hmem.1.1, hmem.1.2.trans_le hmh⟩, ih.mpr ⟨d, hd, hmem.2⟩⟩
          · exact ⟨⟨hlm.trans hmem.1.1, hmem.1.2⟩, ih.mpr ⟨d, hd, hmem.2⟩⟩

/-- The boxes of two corners have no index tuple in common. -/
theorem corner_unique (hc : c ∈ corners lo.length) (hc' : c' ∈ corners lo.length)
    (h₁ : lo.length = mid.length) (h₂ : mid.length = hi.length) (h : Mem (pick c lo mid) (pick c mid hi) idx)
    (h' : Mem (pick c' lo mid) (pick c' mid hi) idx) : c = c' := by
  induction lo generalizing mid hi idx c c' with
  | nil =>
    simp [corners, indices] at hc hc'
    rw [hc, hc']
  | cons l lo ih =>
    cases mid with
    | nil => cases h₁
    | cons m mid =>
      cases hi with
      | nil => cases h₂
      | cons x hi =>
        obtain ⟨d, hd, hcd⟩ := mem_corners_succ.mp hc
        obtain ⟨d', hd', hcd'⟩ := mem_corners_succ.mp hc'
        simp only [List.length_cons, Nat.add_right_cancel_iff] at h₁ h₂
        cases idx with
        | nil => rcases hcd with rfl | rfl <;> cases h
        | cons i idx =>
          rcases hcd with rfl | rfl <;> rcases hcd' with rfl | rfl <;>
            simp only [pick, Mem, if_true, zero_ne_one, if_false] at h h'
          · rw [ih hd hd' h₁ h₂ h.2 h'.2]
          · omega
          · omega
          · rw [ih hd hd' h₁ h₂ h.2 h'.2]

theorem pick_le (hc : c ∈ corners lo.length) (h : List.Forall₂ (· ≤ ·) mid hi) (hlen : lo.length = mid.length) :
    List.Forall₂ (· ≤ ·) (pick c mid hi) hi := by
  induction h generalizing lo c with
  | nil =>
    cases c <;> exact List.Forall₂.nil
  | cons hle _ ih =>
    cases lo with
    | nil => cases hlen
    | cons l lo =>
      obtain ⟨d, hd, rfl | rfl⟩ := mem_corners_succ.mp hc
      · exact List.Forall₂.cons hle (ih hd (by simpa using hlen))
      · exact List.Forall₂.cons le_rfl (ih hd (by simpa using hlen))

theorem extent_pick_le (hc : c ∈ corners lo.length) (h₁ : List.Forall₂ (· < ·) lo mid)
    (h₂ : List.Forall₂ (· ≤ ·) mid hi) : extent (pick c lo mid) (pick c mid hi) ≤ extent lo hi := by
  induction h₁ generalizing hi c with
  | nil =>
    cases h₂
    cases c <;> simp [extent, pick]
  | @cons l m lo mid hlm h₁ ih =>
    cases h₂ with
    | @cons _ h _ hi hmh h₂ =>
      obtain ⟨d, hd, hcd⟩ := mem_corners_succ.mp hc
      have hrest := ih hd h₂
      unfold extent at hrest ⊢
      rcases hcd with rfl | rfl <;>
      · simp only [pick, List.zipWith_cons_cons, List.sum_cons, if_true, zero_ne_one, if_false]
        omega

/-- The box of every corner but the lowest is smaller than the whole. -/
theorem extent_pick_lt (hc : c ∈ (corners lo.length).tail) (h₁ : List.Forall₂ (· < ·) lo mid)
    (h₂ : List.Forall₂ (· ≤ ·) mid hi) : extent (pick c lo mid) (pick c mid hi) < extent lo hi := by
  induction h₁ generalizing hi c with
  | nil => cases hc
  | @cons l m lo mid hlm h₁ ih =>
    cases h₂ with
    | @cons _ h _ hi hmh h₂ =>
      have hcase : (∃ d ∈ (corners lo.length).tail, c = 0 :: d) ∨ ∃ d ∈ corners lo.length, c = 1 :: d := by
        have hne : (corners lo.length).map (0 :: ·) ≠ [] := by
          rw [corners_eq_cons]
          exact List.cons_ne_nil _ _
        rw [List.length_cons, corners_succ, List.tail_append_of_ne_nil hne, ← List.map_tail] at hc
        simpa [eq_comm, -List.map_tail] using hc
      unfold extent
      rcases hcase with ⟨d, hd, rfl⟩ | ⟨d, hd, rfl⟩
      · have hrest := ih hd h₂
        unfold extent at hrest
        simp only [pick, List.zipWith_cons_cons, List.sum_cons, zero_ne_one, if_false]
        omega
      · have hrest := extent_pick_le hd h₁ h₂
        unfold extent at hrest
        simp only [pick, List.zipWith_cons_cons, List.sum_cons, if_true]
        omega

end

/-! ## Tilings -/

/-- The boxes are not empty, have no index tuple in common, and cover the box from `lo` to `hi`. -/
structure Tiles (boxes : List (List ℕ × List ℕ)) (lo hi : List ℕ) : Prop where
  nonempty : ∀ b ∈ boxes, List.Forall₂ (· < ·) b.1 b.2
  disjoint : boxes.Pairwise fun a b => ∀ idx, Mem a.1 a.2 idx → ¬ Mem b.1 b.2 idx
  cover : ∀ idx, Mem lo hi idx ↔ ∃ b ∈ boxes, Mem b.1 b.2 idx

/-- An empty box needs no tile. -/
theorem tiles_nil {lo hi : List ℕ} (h : (List.zipWith (fun l h => decide (h ≤ l)) lo hi).any id = true) :
    Tiles [] lo hi where
  nonempty := nofun
  disjoint := List.Pairwise.nil
  cover := by
    intro idx
    simp only [List.not_mem_nil, false_and, exists_false, iff_false]
    induction lo generalizing hi idx with
    | nil => simp at h
    | cons l lo ih =>
      cases hi with
      | nil => simp at h
      | cons x hi =>
        cases idx with
        | nil => exact id
        | cons i idx =>
          rintro ⟨hli, hmem⟩
          simp only [List.zipWith_cons_cons, List.any_cons, id_eq, Bool.or_eq_true, decide_eq_true_eq] at h
          rcases h with h | h
          · omega
          · exact ih h idx hmem

/-- The lowest corner's box as one tile, and a tiling of the box of every other corner. -/
theorem tiles_corners {lo mid hi : List ℕ} (h₁ : List.Forall₂ (· < ·) lo mid)
    (h₂ : List.Forall₂ (· ≤ ·) mid hi) (boxes : List ℕ → List (List ℕ × List ℕ))
    (h : ∀ c ∈ (corners lo.length).tail, Tiles (boxes c) (pick c lo mid) (pick c mid hi)) :
    Tiles ((lo, mid) :: (corners lo.length).tail.flatMap boxes) lo hi := by
  have hlen₁ := h₁.length_eq
  have hlen₂ := h₂.length_eq
  have hle : List.Forall₂ (· ≤ ·) lo mid := h₁.imp fun _ _ => Nat.le_of_lt
  have hcorners := corners_eq_cons lo.length
  have hzero : ∀ idx, Mem lo mid idx ↔ Mem (pick (List.replicate lo.length 0) lo mid)
      (pick (List.replicate lo.length 0) mid hi) idx := by
    intro idx
    rw [pick_zero hlen₁, hlen₁, pick_zero hlen₂]
  have hnodup : (corners lo.length).Nodup := nodup_indices _
  have hmemc : ∀ c ∈ (corners lo.length).tail, c ∈ corners lo.length := fun c => List.mem_of_mem_tail
  have hzeroc : List.replicate lo.length 0 ∈ corners lo.length := by
    rw [hcorners]
    exact List.mem_cons_self
  -- a tile of a corner lies in the corner's box
  have hin : ∀ c ∈ (corners lo.length).tail, ∀ b ∈ boxes c, ∀ idx, Mem b.1 b.2 idx →
      Mem (pick c lo mid) (pick c mid hi) idx := fun c hc b hb idx hmem => ((h c hc).cover idx).mpr ⟨b, hb, hmem⟩
  refine ⟨?_, List.pairwise_cons.mpr ⟨?_, ?_⟩, ?_⟩
  · intro b hb
    rcases List.mem_cons.mp hb with rfl | hb
    · exact h₁
    · obtain ⟨c, hc, hb⟩ := List.mem_flatMap.mp hb
      exact (h c hc).nonempty b hb
  · intro b hb idx hidx hmem
    obtain ⟨c, hc, hb⟩ := List.mem_flatMap.mp hb
    have heq := corner_unique hzeroc (hmemc c hc) hlen₁ hlen₂ ((hzero idx).mp hidx) (hin c hc b hb idx hmem)
    rw [hcorners, List.nodup_cons, heq] at hnodup
    exact hnodup.1 hc
  · refine List.pairwise_flatMap.mpr ⟨fun c hc => (h c hc).disjoint, ?_⟩
    refine List.Pairwise.imp_of_mem ?_ (hnodup.sublist (List.tail_sublist _))
    intro c c' hc hc' hne a ha b hb idx hidx hmem
    exact hne (corner_unique (hmemc c hc) (hmemc c' hc') hlen₁ hlen₂ (hin c hc a ha idx hidx)
      (hin c' hc' b hb idx hmem))
  · intro idx
    rw [mem_iff_exists_corner hle h₂, hcorners]
    simp only [List.mem_cons, exists_eq_or_imp, List.tail_cons, List.mem_flatMap, hzero]
    refine or_congr_right ⟨?_, ?_⟩
    · rintro ⟨c, hc, hmem⟩
      obtain ⟨b, hb, hmem⟩ := ((h c hc).cover idx).mp hmem
      exact ⟨b, ⟨c, hc, hb⟩, hmem⟩
    · rintro ⟨b, ⟨c, hc, hb⟩, hmem⟩
      exact ⟨c, hc, hin c hc b hb idx hmem⟩

end Box
