import Mathlib.Data.List.Flatten
import Mathlib.Data.List.Nodup
import Mathlib.Data.List.Range
import Mathlib.Data.List.Sort

/-! # Taking rising runs off a list

`pass` keeps the elements whose rank is no less than every rank kept before and puts the others aside.
If that is repeated with what was put aside, an element is put aside as often as its depth says, the
length of the longest chain of earlier, strictly falling ranks that ends at it. So the passes together
list the elements by depth, and two of them change places exactly when the earlier one is deeper. -/
namespace Layers
set_option autoImplicit false

variable {α : Type*} (rank : α → ℕ)

/-- One pass; `dims` is the rank of the last element kept. -/
def pass : ℕ → List α → List α × List α
  | _, [] => ([], [])
  | dims, x :: xs =>
    if dims ≤ rank x then (x :: (pass (rank x) xs).1, (pass (rank x) xs).2)
    else ((pass dims xs).1, x :: (pass dims xs).2)

/-- The depth of an element of rank `r` behind elements with these ranks and depths. -/
def depthAfter (prior : List (ℕ × ℕ)) (r : ℕ) : ℕ :=
  ((prior.filter fun p => r < p.1).map fun p => p.2 + 1).foldr max 0

/-- The elements with their depths. -/
def marked (prior : List (ℕ × ℕ)) : List α → List (α × ℕ)
  | [] => []
  | x :: xs => (x, depthAfter prior (rank x)) :: marked ((rank x, depthAfter prior (rank x)) :: prior) xs

/-- The elements of one depth. -/
def layer (d : ℕ) (ms : List (α × ℕ)) : List α := (ms.filter fun p => p.2 = d).map Prod.fst

/-- The elements by depth, those of one depth in their order. -/
def byDepth (ms : List (α × ℕ)) : List α := (List.range ms.length).flatMap fun d => layer d ms

/-! ## Depths -/

variable {rank}

theorem le_foldr_max {xs : List ℕ} {n : ℕ} : xs.foldr max 0 ≤ n ↔ ∀ x ∈ xs, x ≤ n := by
  induction xs with
  | nil => simp
  | cons x xs ih => rw [List.foldr_cons, Nat.max_le, ih, List.forall_mem_cons]

theorem depthAfter_le {prior : List (ℕ × ℕ)} {r n : ℕ} :
    depthAfter prior r ≤ n ↔ ∀ p ∈ prior, r < p.1 → p.2 < n := by
  rw [depthAfter, le_foldr_max, List.forall_mem_map]
  simp only [List.mem_filter, decide_eq_true_eq, and_imp, Nat.succ_le_iff]

theorem depthAfter_eq_zero {prior : List (ℕ × ℕ)} {r : ℕ} : depthAfter prior r = 0 ↔ ∀ p ∈ prior, p.1 ≤ r := by
  rw [← Nat.le_zero, depthAfter_le]
  refine forall₂_congr fun p _ => ?_
  constructor
  · intro h
    by_contra hlt
    exact absurd (h (by omega)) (Nat.not_lt_zero _)
  · intro h hlt
    omega

/-- Without the elements of depth zero every depth is one less. -/
theorem depthAfter_filter (prior : List (ℕ × ℕ)) (r : ℕ) :
    depthAfter ((prior.filter fun p => 0 < p.2).map fun p => (p.1, p.2 - 1)) r = depthAfter prior r - 1 := by
  have hle : ∀ n, depthAfter ((prior.filter fun p => 0 < p.2).map fun p => (p.1, p.2 - 1)) r ≤ n ↔
      depthAfter prior r - 1 ≤ n := by
    intro n
    rw [depthAfter_le, Nat.sub_le_iff_le_add, depthAfter_le, List.forall_mem_map]
    simp only [List.mem_filter, decide_eq_true_eq, and_imp]
    refine forall₂_congr fun p _ => ?_
    constructor
    · intro h hlt
      by_cases hp : 0 < p.2
      · have := h hp hlt
        omega
      · omega
    · intro h hp hlt
      have := h hlt
      omega
  exact le_antisymm ((hle _).mpr le_rfl) ((hle _).mp le_rfl)

theorem length_marked (prior : List (ℕ × ℕ)) (xs : List α) : (marked rank prior xs).length = xs.length := by
  induction xs generalizing prior with
  | nil => rfl
  | cons x xs ih => rw [marked, List.length_cons, ih, List.length_cons]

theorem map_fst_marked (prior : List (ℕ × ℕ)) (xs : List α) : (marked rank prior xs).map Prod.fst = xs := by
  induction xs generalizing prior with
  | nil => rfl
  | cons x xs ih => rw [marked, List.map_cons, ih]

/-! ## One pass -/

/-- A pass keeps the elements of depth zero. -/
theorem pass_eq {prior : List (ℕ × ℕ)} {dims : ℕ} (h : ∀ r, dims ≤ r ↔ ∀ p ∈ prior, p.1 ≤ r) (xs : List α) :
    pass rank dims xs = (layer 0 (marked rank prior xs),
      ((marked rank prior xs).filter fun p => 0 < p.2).map Prod.fst) := by
  induction xs generalizing prior dims with
  | nil => rfl
  | cons x xs ih =>
    have hzero : dims ≤ rank x ↔ depthAfter prior (rank x) = 0 := by rw [h, depthAfter_eq_zero]
    by_cases hx : dims ≤ rank x
    · have hd := hzero.mp hx
      have hnext : ∀ r, rank x ≤ r ↔ ∀ p ∈ (rank x, depthAfter prior (rank x)) :: prior, p.1 ≤ r := by
        intro r
        rw [List.forall_mem_cons]
        constructor
        · intro hr
          exact ⟨hr, (h r).mp (hx.trans hr)⟩
        · exact fun hr => hr.1
      rw [pass, if_pos hx, ih hnext, marked, layer, layer, List.filter_cons_of_pos (by simpa using hd),
        List.filter_cons_of_neg (by simp [hd])]
      rfl
    · have hd : depthAfter prior (rank x) ≠ 0 := fun h0 => hx (hzero.mpr h0)
      have hnext : ∀ r, dims ≤ r ↔ ∀ p ∈ (rank x, depthAfter prior (rank x)) :: prior, p.1 ≤ r := by
        intro r
        rw [List.forall_mem_cons, ← h]
        constructor
        · intro hr
          exact ⟨by show rank x ≤ r; omega, hr⟩
        · exact fun hr => hr.2
      rw [pass, if_neg hx, ih hnext, marked, layer, layer, List.filter_cons_of_neg (by simpa using hd),
        List.filter_cons_of_pos (by simpa using Nat.pos_of_ne_zero hd)]
      rfl

theorem marked_filter (prior : List (ℕ × ℕ)) (xs : List α) :
    marked rank ((prior.filter fun p => 0 < p.2).map fun p => (p.1, p.2 - 1))
        (((marked rank prior xs).filter fun p => 0 < p.2).map Prod.fst) =
      ((marked rank prior xs).filter fun p => 0 < p.2).map fun p => (p.1, p.2 - 1) := by
  induction xs generalizing prior with
  | nil => rfl
  | cons x xs ih =>
    rw [marked]
    by_cases hd : 0 < depthAfter prior (rank x)
    · rw [List.filter_cons_of_pos (by simpa using hd), List.map_cons, List.map_cons, marked, depthAfter_filter]
      have hrest := ih ((rank x, depthAfter prior (rank x)) :: prior)
      rw [List.filter_cons_of_pos (by simpa using hd), List.map_cons] at hrest
      rw [hrest]
    · rw [List.filter_cons_of_neg (by simpa using hd)]
      have hrest := ih ((rank x, depthAfter prior (rank x)) :: prior)
      rwa [List.filter_cons_of_neg (by simpa using hd)] at hrest

/-! ## All passes -/

theorem layer_pred (ms : List (α × ℕ)) (d : ℕ) :
    layer d ((ms.filter fun p => 0 < p.2).map fun p => (p.1, p.2 - 1)) = layer (d + 1) ms := by
  induction ms with
  | nil => rfl
  | cons p ms ih =>
    unfold layer at ih ⊢
    by_cases hp : 0 < p.2
    · rw [List.filter_cons_of_pos (by simpa using hp), List.map_cons]
      by_cases hd : p.2 = d + 1
      · rw [List.filter_cons_of_pos (by simp [hd]), List.filter_cons_of_pos (by simp [hd]), List.map_cons, List.map_cons, ih]
      · rw [List.filter_cons_of_neg (by simp; omega), List.filter_cons_of_neg (by simp [hd]), ih]
    · rw [List.filter_cons_of_neg (by simpa using hp), ih, List.filter_cons_of_neg (by simp; omega)]

/-- Every depth is less than the number of elements up to it. -/
theorem depth_lt_length {prior : List (ℕ × ℕ)} (hprior : ∀ p ∈ prior, p.2 < prior.length) {xs : List α} :
    ∀ p ∈ marked rank prior xs, p.2 < prior.length + xs.length := by
  induction xs generalizing prior with
  | nil => simp [marked]
  | cons x xs ih =>
    have hd : depthAfter prior (rank x) ≤ prior.length := depthAfter_le.mpr fun p hp _ => hprior p hp
    intro p hp
    rw [marked] at hp
    rcases List.mem_cons.mp hp with rfl | hp
    · simp only [List.length_cons]
      omega
    · have hrest := @ih ((rank x, depthAfter prior (rank x)) :: prior) (by
        intro q hq
        rw [List.length_cons]
        rcases List.mem_cons.mp hq with rfl | hq
        · exact Nat.lt_succ_of_le hd
        · exact (hprior q hq).trans (Nat.lt_succ_self _)) p hp
      rw [List.length_cons] at hrest ⊢
      omega

/-- Layers beyond every depth are empty. -/
theorem flatMap_layer_add {ms : List (α × ℕ)} {n : ℕ} (hn : ∀ p ∈ ms, p.2 < n) (k : ℕ) :
    ((List.range (n + k)).flatMap fun d => layer d ms) = (List.range n).flatMap fun d => layer d ms := by
  rw [List.range_add, List.flatMap_append]
  have hnil : ((List.range k).map (n + ·)).flatMap (fun d => layer d ms) = [] := by
    rw [List.flatMap_eq_nil_iff]
    intro d hd
    obtain ⟨j, _, rfl⟩ := List.mem_map.mp hd
    rw [layer, List.map_eq_nil_iff, List.filter_eq_nil_iff]
    intro p hp
    have := hn p hp
    simp; omega
  rw [hnil, List.append_nil]

theorem flatMap_layer_eq {ms : List (α × ℕ)} {n m : ℕ} (hn : ∀ p ∈ ms, p.2 < n) (hm : ∀ p ∈ ms, p.2 < m) :
    ((List.range m).flatMap fun d => layer d ms) = (List.range n).flatMap fun d => layer d ms := by
  rcases le_total n m with hle | hle
  · obtain ⟨k, rfl⟩ := Nat.exists_eq_add_of_le hle
    exact flatMap_layer_add hn k
  · obtain ⟨k, rfl⟩ := Nat.exists_eq_add_of_le hle
    exact (flatMap_layer_add hm k).symm

theorem depth_lt (xs : List α) : ∀ p ∈ marked rank [] xs, p.2 < (marked rank [] xs).length := by
  intro p hp
  have := depth_lt_length (fun p hp => by cases hp) p hp
  rwa [List.length_nil, Nat.zero_add, ← @length_marked α rank []] at this

/-- What a pass puts aside, by depth, comes behind what it keeps. -/
theorem byDepth_marked (xs : List α) :
    byDepth (marked rank [] xs) = (pass rank 0 xs).1 ++ byDepth (marked rank [] (pass rank 0 xs).2) := by
  have hpass := @pass_eq α rank [] 0 (by simp) xs
  have hmarked := @marked_filter α rank [] xs
  rw [List.filter_nil, List.map_nil] at hmarked
  have haside := @depth_lt α rank (((marked rank [] xs).filter fun p => 0 < p.2).map Prod.fst)
  have hdepth := @depth_lt α rank xs
  rw [hpass]
  simp only
  rw [byDepth, byDepth]
  rw [hmarked] at haside ⊢
  cases hms : marked rank [] xs with
  | nil => rfl
  | cons m ms =>
    rw [hms] at hdepth haside
    rw [List.length_cons, List.range_succ_eq_map, List.flatMap_cons, List.flatMap_map]
    congr 1
    simp only [Nat.succ_eq_add_one, ← layer_pred (m :: ms)]
    refine flatMap_layer_eq haside ?_
    intro p hp
    obtain ⟨q, hq, rfl⟩ := List.mem_map.mp hp
    have hlt := hdepth q (List.mem_of_mem_filter hq)
    have hpos := (List.mem_filter.mp hq).2
    simp only [decide_eq_true_eq, List.length_cons] at hpos hlt ⊢
    omega

theorem perm_byDepth {ms : List (α × ℕ)} (h : ∀ p ∈ ms, p.2 < ms.length) : (byDepth ms).Perm (ms.map Prod.fst) := by
  have hsplit : ∀ n, ((List.range n).flatMap fun d => layer d ms).Perm
      ((ms.filter fun p => p.2 < n).map Prod.fst) := by
    intro n
    induction n with
    | zero => simp
    | succ n ih =>
      rw [List.range_succ, List.flatMap_append, List.flatMap_singleton]
      have hcut : ((ms.filter fun p => p.2 < n) ++ ms.filter fun p => p.2 = n).Perm (ms.filter fun p => p.2 < n + 1) := by
        have happ := List.filter_append_perm (fun p : α × ℕ => decide (p.2 < n)) (ms.filter fun p => p.2 < n + 1)
        rw [List.filter_filter, List.filter_filter] at happ
        refine List.Perm.trans (List.Perm.of_eq ?_) happ
        congr 1
        · refine List.filter_congr fun p _ => ?_
          rw [Bool.eq_iff_iff]
          simp
          omega
        · refine List.filter_congr fun p _ => ?_
          rw [Bool.eq_iff_iff]
          simp
          omega
      refine (ih.append_right _).trans ?_
      rw [layer, ← List.map_append]
      exact hcut.map _
  refine (hsplit ms.length).trans (List.Perm.of_eq ?_)
  rw [List.filter_eq_self.mpr]
  intro p hp
  simpa using h p hp

/-! ## Who overtakes whom -/

theorem sublist_layer {p q : α × ℕ} {ms : List (α × ℕ)} (h : [p, q].Sublist ms) (hd : p.2 = q.2) :
    [p.1, q.1].Sublist (layer q.2 ms) := by
  have hf := (h.filter fun r => decide (r.2 = q.2)).map Prod.fst
  rwa [List.filter_cons_of_pos (by simpa using hd), List.filter_cons_of_pos (by simp), List.filter_nil] at hf

/-- An element of lower depth comes before one of greater depth. -/
theorem sublist_byDepth_of_lt {p q : α × ℕ} {ms : List (α × ℕ)} (hp : p ∈ ms) (hq : q ∈ ms) (hlt : p.2 < q.2)
    (hlen : q.2 < ms.length) : [p.1, q.1].Sublist (byDepth ms) := by
  have hmem : ∀ {r : α × ℕ}, r ∈ ms → r.1 ∈ layer r.2 ms := fun hr =>
    List.mem_map.mpr ⟨_, List.mem_filter.mpr ⟨hr, by simp⟩, rfl⟩
  have hrange : [p.2, q.2].Sublist (List.range ms.length) := by
    have hsub : List.Subperm [p.2, q.2] (List.range ms.length) := by
      refine List.subperm_of_subset (by simp [hlt.ne]) fun x hx => ?_
      simp only [List.mem_cons, List.not_mem_nil, or_false] at hx
      rw [List.mem_range]
      omega
    exact List.sublist_of_subperm_of_pairwise hsub (by simpa using hlt) List.pairwise_lt_range
  have hflat : ([p.2, q.2].flatMap fun d => layer d ms).Sublist (byDepth ms) := hrange.flatMap _
  refine List.Sublist.trans ?_ hflat
  rw [List.flatMap_cons, List.flatMap_cons, List.flatMap_nil, List.append_nil]
  exact (List.singleton_sublist.mpr (hmem hp)).append (List.singleton_sublist.mpr (hmem hq))

theorem not_sublist_swap {l : List α} (hl : l.Nodup) {x y : α} (h : [x, y].Sublist l) : ¬ [y, x].Sublist l := by
  intro h'
  induction l with
  | nil => cases h
  | cons z l ih =>
    obtain ⟨hz, hl⟩ := List.nodup_cons.mp hl
    cases h with
    | cons _ h =>
      cases h' with
      | cons _ h' => exact ih hl h h'
      | cons_cons _ h' => exact hz (h.subset (by simp))
    | cons_cons _ h =>
      cases h' with
      | cons _ h' => exact hz (h'.subset (by simp))
      | cons_cons _ h' => exact hz (h'.subset (by simp))

theorem sublist_byDepth_iff {p q : α × ℕ} {ms : List (α × ℕ)} (hms : (ms.map Prod.fst).Nodup)
    (hdepth : ∀ p ∈ ms, p.2 < ms.length) (h : [p, q].Sublist ms) :
    [p.1, q.1].Sublist (byDepth ms) ↔ p.2 ≤ q.2 := by
  have hp : p ∈ ms := h.subset (by simp)
  have hq : q ∈ ms := h.subset (by simp)
  constructor
  · intro hsub
    by_contra hlt
    exact not_sublist_swap ((perm_byDepth hdepth).nodup_iff.mpr hms) hsub
      (sublist_byDepth_of_lt hq hp (by omega) (hdepth p hp))
  · intro hle
    rcases Nat.lt_or_eq_of_le hle with hlt | heq
    · exact sublist_byDepth_of_lt hp hq hlt (hdepth q hq)
    · refine (sublist_layer h heq).trans ?_
      have hone : [q.2].Sublist (List.range ms.length) :=
        List.singleton_sublist.mpr (List.mem_range.mpr (hdepth q hq))
      have hflat := hone.flatMap fun d => layer d ms
      rwa [List.flatMap_singleton] at hflat

/-- The pairs of a relation keep their order exactly when in none of them the earlier element is deeper. -/
theorem keeps_order_iff {xs : List α} (hxs : xs.Nodup) (R : α → α → Prop) :
    (∀ x y, [x, y].Sublist xs → R x y → [x, y].Sublist (byDepth (marked rank [] xs))) ↔
      (marked rank [] xs).Pairwise fun p q => R p.1 q.1 → p.2 ≤ q.2 := by
  have hnodup : ((marked rank [] xs).map Prod.fst).Nodup := by rwa [map_fst_marked]
  rw [List.pairwise_iff_forall_sublist]
  constructor
  · intro h p q hpq hR
    have hsub := hpq.map Prod.fst
    rw [map_fst_marked] at hsub
    exact (sublist_byDepth_iff hnodup (depth_lt xs) hpq).mp (h _ _ hsub hR)
  · intro h x y hxy hR
    rw [← @map_fst_marked α rank [] xs, List.sublist_map_iff] at hxy
    obtain ⟨l, hl, heq⟩ := hxy
    obtain ⟨p, l, rfl, rfl, h2⟩ := List.map_eq_cons_iff.mp heq.symm
    obtain ⟨q, l, rfl, rfl, h3⟩ := List.map_eq_cons_iff.mp h2
    rw [List.map_eq_nil_iff.mp h3] at hl
    exact (sublist_byDepth_iff hnodup (depth_lt xs) hl).mpr (h hl hR)

end Layers
