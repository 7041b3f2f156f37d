import Bohrium.Core.Kernel
import Mathlib.Data.List.GetD
import Mathlib.Data.List.Range
import Mathlib.Data.List.Sort
import Mathlib.Tactic.Linarith

/-! # Dimension orders

`genDimOrders` (`ve/gpu/InstructionScheduler.cpp`): for every rank the order in which the generated loops
run over the dimensions. A sweep moves its axis first in its own rank, and the corresponding dimension
behind the higher ones in every higher rank. Rank by rank the orders nest: the axis that comes first, then
the order of the rank below with the dimensions renumbered round that axis. -/
namespace Bohrium.Gpu
set_option autoImplicit false

/-! ## The source functions -/

/-- `for (i = s; i > 0; --i) dimOrders[d][i+o] = dimOrders[d][i+o-1]`. -/
def shiftLoop (o : ℕ) : ℕ → List ℕ → List ℕ
  | 0, l => l
  | i + 1, l => shiftLoop o i (l.set (i + 1 + o) (l.getD (i + o) 0))

/-- The body of the loop over the ranks. -/
def moveFirst (o s : ℕ) (l : List ℕ) : List ℕ := (shiftLoop o s l).set o (l.getD (s + o) 0)

/-- The loop over the ranks from that of the sweep on; `o` counts up with the rank. -/
def sweepFrom (s : ℕ) : ℕ → List (List ℕ) → List (List ℕ)
  | _, [] => []
  | o, l :: ls => moveFirst o s l :: sweepFrom s (o + 1) ls

def rearrange (dimOrders : List (List ℕ)) (sweep : ℕ × ℤ) : List (List ℕ) :=
  dimOrders.take (sweep.1 - 1) ++ sweepFrom sweep.2.toNat 0 (dimOrders.drop (sweep.1 - 1))

def basicOrders (ndim : ℕ) : List (List ℕ) := (List.range ndim).map fun d => List.range (d + 1)

/-- The entries of the map from the greatest rank down, as `crbegin` lists them. -/
def descending (sweeps : List (ℕ × ℤ)) : List (ℕ × ℤ) := sweeps.insertionSort fun p q => q.1 ≤ p.1

def genDimOrders (sweeps : List (ℕ × ℤ)) (ndim : ℕ) : List (List ℕ) :=
  (descending sweeps).foldl rearrange (basicOrders ndim)

/-! ## Moving one dimension first -/

theorem length_shiftLoop (o s : ℕ) (l : List ℕ) : (shiftLoop o s l).length = l.length := by
  induction s generalizing l with
  | zero => rfl
  | succ s ih => rw [shiftLoop, ih, List.length_set]

theorem shiftLoop_cons (o s x : ℕ) (l : List ℕ) : shiftLoop (o + 1) s (x :: l) = x :: shiftLoop o s l := by
  induction s generalizing l with
  | zero => rfl
  | succ s ih =>
    rw [shiftLoop, shiftLoop, ← Nat.add_assoc, ← Nat.add_assoc, List.set_cons_succ, List.getD_cons_succ, ih]

theorem moveFirst_cons (o s x : ℕ) (l : List ℕ) : moveFirst (o + 1) s (x :: l) = x :: moveFirst o s l := by
  rw [moveFirst, moveFirst, shiftLoop_cons, List.set_cons_succ, ← Nat.add_assoc, List.getD_cons_succ]

theorem getD_map_of_lt {f : ℕ → ℕ} {l : List ℕ} {j : ℕ} (hj : j < l.length) :
    (l.map f).getD j 0 = f (l.getD j 0) := by
  rw [List.getD_eq_getElem _ _ (by simpa using hj), List.getD_eq_getElem _ _ hj, List.getElem_map]

theorem shiftLoop_map (f : ℕ → ℕ) {o s : ℕ} {l : List ℕ} (h : s + o < l.length) :
    shiftLoop o s (l.map f) = (shiftLoop o s l).map f := by
  induction s generalizing l with
  | zero => rfl
  | succ s ih =>
    rw [shiftLoop, shiftLoop, getD_map_of_lt (by omega), ← List.map_set]
    exact ih (by rw [List.length_set]; omega)

theorem moveFirst_map (f : ℕ → ℕ) {o s : ℕ} {l : List ℕ} (h : s + o < l.length) :
    moveFirst o s (l.map f) = (moveFirst o s l).map f := by
  rw [moveFirst, moveFirst, shiftLoop_map f h, getD_map_of_lt h, List.map_set]

theorem length_moveFirst (o s : ℕ) (l : List ℕ) : (moveFirst o s l).length = l.length := by
  rw [moveFirst, List.length_set, length_shiftLoop]

theorem getElem?_shiftLoop {s : ℕ} {l : List ℕ} (h : s < l.length) (j : ℕ) :
    (shiftLoop 0 s l)[j]? = if 1 ≤ j ∧ j ≤ s then l[j - 1]? else l[j]? := by
  induction s generalizing l with
  | zero =>
    rw [if_neg (by omega)]
    rfl
  | succ s ih =>
    have hget : l.getD s 0 = l[s] := List.getD_eq_getElem _ _ (by omega)
    rw [shiftLoop, ih (by rw [List.length_set]; omega)]
    simp only [Nat.add_zero, hget]
    split_ifs with h1 h2 h2
    · rw [List.getElem?_set_ne (by omega)]
    · omega
    · have hj : j = s + 1 := by omega
      subst hj
      rw [List.getElem?_set_self h, Nat.add_sub_cancel, List.getElem?_eq_getElem]
    · rw [List.getElem?_set]
      split_ifs with hj
      · omega
      · rfl

/-- In its own rank a sweep moves its axis to the front. -/
theorem moveFirst_zero {s : ℕ} {l : List ℕ} (h : s < l.length) : moveFirst 0 s l = l[s] :: l.eraseIdx s := by
  apply List.ext_getElem?
  intro j
  have hget : l.getD s 0 = l[s] := List.getD_eq_getElem _ _ h
  rw [moveFirst, Nat.add_zero, hget]
  cases j with
  | zero =>
    rw [List.getElem?_set_self (by rw [length_shiftLoop]; omega)]
    rfl
  | succ j =>
    rw [List.getElem?_set_ne (by omega), getElem?_shiftLoop h, List.getElem?_cons_succ, List.getElem?_eraseIdx]
    split_ifs with h1 h2 h2
    · rfl
    · omega
    · omega
    · rfl

/-! ## One rank -/

/-- What the sweeps do to the order at position `d`. -/
def orderAt (d : ℕ) (l : List ℕ) (sweeps : List (ℕ × ℤ)) : List ℕ :=
  sweeps.foldl (fun l p => if p.1 ≤ d + 1 then moveFirst (d + 1 - p.1) p.2.toNat l else l) l

theorem getElem?_sweepFrom (s o d : ℕ) (ls : List (List ℕ)) :
    (sweepFrom s o ls)[d]? = ls[d]?.map (moveFirst (o + d) s) := by
  induction ls generalizing o d with
  | nil => simp [sweepFrom]
  | cons l ls ih =>
    cases d with
    | zero => rfl
    | succ d => rw [sweepFrom, List.getElem?_cons_succ, List.getElem?_cons_succ, ih, Nat.add_right_comm, Nat.add_assoc]

theorem getElem?_rearrange (dimOrders : List (List ℕ)) {p : ℕ × ℤ} (hp : 1 ≤ p.1) (d : ℕ) :
    (rearrange dimOrders p)[d]? =
      dimOrders[d]?.map fun l => if p.1 ≤ d + 1 then moveFirst (d + 1 - p.1) p.2.toNat l else l := by
  unfold rearrange
  rw [List.getElem?_append, List.length_take]
  by_cases hd : p.1 ≤ d + 1
  · rw [if_neg (by omega), getElem?_sweepFrom, List.getElem?_drop]
    simp only [if_pos hd]
    by_cases hlen : d < dimOrders.length
    · rw [show p.1 - 1 + (d - min (p.1 - 1) dimOrders.length) = d by omega,
        show 0 + (d - min (p.1 - 1) dimOrders.length) = d + 1 - p.1 by omega]
    · rw [List.getElem?_eq_none (show dimOrders.length ≤ d by omega), List.getElem?_eq_none (by omega)]
      rfl
  · simp only [if_neg hd, Option.map_id']
    split_ifs with hlt
    · rw [List.getElem?_take_of_lt (by omega)]
    · rw [getElem?_sweepFrom, List.getElem?_drop, List.getElem?_eq_none (show dimOrders.length ≤ d by omega),
        List.getElem?_eq_none (by omega)]
      rfl

theorem getElem?_foldl_rearrange {sweeps : List (ℕ × ℤ)} (h : ∀ p ∈ sweeps, 1 ≤ p.1)
    (dimOrders : List (List ℕ)) (d : ℕ) :
    (sweeps.foldl rearrange dimOrders)[d]? = dimOrders[d]?.map fun l => orderAt d l sweeps := by
  induction sweeps generalizing dimOrders with
  | nil => simp [orderAt]
  | cons p sweeps ih =>
    rw [List.forall_mem_cons] at h
    rw [List.foldl_cons, ih h.2, getElem?_rearrange _ h.1, Option.map_map]
    rfl

/-! ## From one rank to the next -/

/-- The dimensions of a rank, renumbered round a new dimension `s`. -/
def skip (s x : ℕ) : ℕ := if x < s then x else x + 1

theorem range_eraseIdx (n s : ℕ) (h : s ≤ n) : (List.range (n + 1)).eraseIdx s = (List.range n).map (skip s) := by
  apply List.ext_getElem?
  intro j
  rw [List.getElem?_eraseIdx, List.getElem?_map]
  unfold skip
  by_cases hj : j < n
  · rw [List.getElem?_range hj, Option.map_some]
    split_ifs
    · rw [List.getElem?_range (by omega)]
    · rw [List.getElem?_range (by omega)]
  · rw [List.getElem?_eq_none (show (List.range n).length ≤ j by simpa using hj), Option.map_none, if_neg (by omega)]
    exact List.getElem?_eq_none (by rw [List.length_range]; omega)

/-- The axis of a rank, `0` for a rank without a sweep. -/
def axisOf (sweeps : List (ℕ × ℤ)) (rank : ℕ) : ℕ := ((sweeps.lookup rank).getD 0).toNat

/-- The sweeps a map may hold: every axis is one of its rank. -/
def Axes (sweeps : List (ℕ × ℤ)) : Prop := ∀ p ∈ sweeps, 1 ≤ p.1 ∧ 0 ≤ p.2 ∧ p.2 < p.1

variable {sweeps : List (ℕ × ℤ)} {d : ℕ}

/-- Sweeps of lower ranks leave the first dimension where it is. -/
theorem orderAt_cons (h : ∀ p ∈ sweeps, p.1 ≤ d + 1) (x : ℕ) (l : List ℕ) :
    orderAt (d + 1) (x :: l) sweeps = x :: orderAt d l sweeps := by
  induction sweeps generalizing l with
  | nil => rfl
  | cons p sweeps ih =>
    rw [List.forall_mem_cons] at h
    simp only [orderAt, List.foldl_cons]
    rw [if_pos (by omega), if_pos h.1, show d + 1 + 1 - p.1 = d + 1 - p.1 + 1 by omega, moveFirst_cons]
    exact ih h.2 _

theorem orderAt_map (h : Axes sweeps) (f : ℕ → ℕ) {l : List ℕ} (hl : l.length = d + 1) :
    orderAt d (l.map f) sweeps = (orderAt d l sweeps).map f := by
  induction sweeps generalizing l with
  | nil => rfl
  | cons p sweeps ih =>
    obtain ⟨hp, hrest⟩ := List.forall_mem_cons.mp h
    simp only [orderAt, List.foldl_cons]
    split_ifs with hd
    · rw [moveFirst_map f (by omega)]
      exact ih hrest (by rw [length_moveFirst, hl])
    · exact ih hrest hl

/-- The order of a rank is its axis and the order of the rank below, renumbered. -/
theorem orderAt_succ (h : Axes sweeps) (hdesc : sweeps.Pairwise fun p q => q.1 < p.1) :
    orderAt (d + 1) (List.range (d + 2)) sweeps =
      axisOf sweeps (d + 2) :: (orderAt d (List.range (d + 1)) sweeps).map (skip (axisOf sweeps (d + 2))) := by
  have hlow : ∀ {xs : List (ℕ × ℤ)}, Axes xs → (∀ p ∈ xs, p.1 ≤ d + 1) → ∀ s ≤ d + 1,
      orderAt (d + 1) (s :: (List.range (d + 2)).eraseIdx s) xs =
        s :: (orderAt d (List.range (d + 1)) xs).map (skip s) := by
    intro xs hxs hle s hs
    rw [orderAt_cons hle, range_eraseIdx _ _ hs, orderAt_map hxs _ List.length_range]
  have hfront : List.range (d + 2) = 0 :: (List.range (d + 2)).eraseIdx 0 := by
    rw [List.range_succ_eq_map]
    rfl
  induction sweeps with
  | nil =>
    rw [hfront]
    exact hlow h (by simp) 0 (by omega)
  | cons p sweeps ih =>
    obtain ⟨hp, hrest⟩ := List.forall_mem_cons.mp h
    rw [List.pairwise_cons] at hdesc
    rcases lt_trichotomy p.1 (d + 2) with hlt | heq | hgt
    · -- no sweep of this rank: the first dimension stays first
      have hnone : (p :: sweeps).lookup (d + 2) = none := by
        rw [List.lookup_eq_none_iff]
        intro q hq
        rcases List.mem_cons.mp hq with rfl | hq
        · simp; omega
        · have := hdesc.1 q hq
          simp; omega
      have hle : ∀ q ∈ p :: sweeps, q.1 ≤ d + 1 := by
        intro q hq
        rcases List.mem_cons.mp hq with rfl | hq
        · omega
        · have := hdesc.1 q hq
          omega
      have hzero : axisOf (p :: sweeps) (d + 2) = 0 := by
        rw [axisOf, hnone]
        rfl
      rw [hzero, hfront]
      exact hlow h hle 0 (by omega)
    · obtain ⟨r, s⟩ := p
      subst heq
      have haxis : axisOf ((d + 2, s) :: sweeps) (d + 2) = s.toNat := by
        simp [axisOf]
      have hle : ∀ q ∈ sweeps, q.1 ≤ d + 1 := fun q hq => by
        have := hdesc.1 q hq
        simp only at this
        omega
      have hs : s.toNat ≤ d + 1 := by
        simp only at hp
        omega
      rw [haxis]
      have hfirst : orderAt (d + 1) (List.range (d + 2)) ((d + 2, s) :: sweeps) =
          orderAt (d + 1) (s.toNat :: (List.range (d + 2)).eraseIdx s.toNat) sweeps := by
        simp only [orderAt, List.foldl_cons, le_refl, if_true, Nat.sub_self]
        rw [moveFirst_zero (by rw [List.length_range]; omega), List.getElem_range]
      have hskip : orderAt d (List.range (d + 1)) ((d + 2, s) :: sweeps) = orderAt d (List.range (d + 1)) sweeps := by
        simp only [orderAt, List.foldl_cons]
        rw [if_neg (by omega)]
      rw [hfirst, hskip, hlow hrest hle s.toNat hs]
    · have haxis : axisOf (p :: sweeps) (d + 2) = axisOf sweeps (d + 2) := by
        rw [axisOf, axisOf, List.lookup_cons]
        simp [show (d + 2 == p.1) = false by simp; omega]
      have hskip : ∀ e, e ≤ d + 1 → ∀ l, orderAt e l (p :: sweeps) = orderAt e l sweeps := by
        intro e he l
        simp only [orderAt, List.foldl_cons]
        rw [if_neg (by omega)]
      rw [haxis, hskip _ le_rfl, hskip _ (by omega), ih hrest hdesc.2]

/-! ## The family of orders -/

theorem perm_descending (sweeps : List (ℕ × ℤ)) : (descending sweeps).Perm sweeps := List.perm_insertionSort _ _

/-- From the greatest rank down, without equal ranks. -/
theorem pairwise_descending (hkeys : (sweeps.map Prod.fst).Nodup) :
    (descending sweeps).Pairwise fun p q => q.1 < p.1 := by
  have hle : (descending sweeps).Pairwise fun p q => q.1 ≤ p.1 := by
    have : Std.Total fun p q : ℕ × ℤ => q.1 ≤ p.1 := ⟨fun p q => le_total q.1 p.1⟩
    have : IsTrans (ℕ × ℤ) fun p q => q.1 ≤ p.1 := ⟨fun _ _ _ h1 h2 => h2.trans h1⟩
    exact List.pairwise_insertionSort _ _
  have hne : (descending sweeps).Pairwise fun p q => p.1 ≠ q.1 := by
    have hnodup : ((descending sweeps).map Prod.fst).Nodup := ((perm_descending sweeps).map _).nodup_iff.mpr hkeys
    exact List.pairwise_map.mp hnodup
  exact (hle.and hne).imp fun h => lt_of_le_of_ne h.1 (Ne.symm h.2)

theorem perm_cons_map_skip {l : List ℕ} (hl : l.Perm (List.range d)) {s : ℕ} (hs : s ≤ d) :
    (s :: l.map (skip s)).Perm (List.range (d + 1)) := by
  have hmap : (l.map (skip s)).Perm ((List.range (d + 1)).eraseIdx s) := by
    rw [range_eraseIdx d s hs]
    exact hl.map _
  have hlt : s < (List.range (d + 1)).length := by
    rw [List.length_range]
    omega
  have herase : ((List.range (d + 1))[s] :: (List.range (d + 1)).eraseIdx s).Perm (List.range (d + 1)) :=
    List.getElem_cons_eraseIdx_perm hlt
  rw [List.getElem_range] at herase
  exact (hmap.cons s).trans herase

theorem lookup_eq_of_mem_descending {r : ℕ} {s : ℤ} (hdesc : sweeps.Pairwise fun p q => q.1 < p.1)
    (hmem : (r, s) ∈ sweeps) : sweeps.lookup r = some s := by
  induction sweeps with
  | nil => cases hmem
  | cons p sweeps ih =>
    rw [List.pairwise_cons] at hdesc
    rcases List.mem_cons.mp hmem with rfl | hmem
    · exact List.lookup_cons_self
    · have hlt := hdesc.1 _ hmem
      rw [List.lookup_cons, show (r == p.1) = false by simpa using hlt.ne]
      exact ih hdesc.2 hmem

/-- The numbering of the dimensions once `s` is taken out. -/
def renumber (s x : ℕ) : ℕ := if s < x then x - 1 else x

theorem renumber_skip (s x : ℕ) : renumber s (skip s x) = x := by
  unfold renumber skip
  split_ifs <;> omega

theorem orderAt_zero (h : Axes sweeps) : orderAt 0 [0] sweeps = [0] := by
  induction sweeps with
  | nil => rfl
  | cons p sweeps ih =>
    obtain ⟨hp, hrest⟩ := List.forall_mem_cons.mp h
    simp only [orderAt, List.foldl_cons]
    have hstay : (if p.1 ≤ 0 + 1 then moveFirst (0 + 1 - p.1) p.2.toNat [0] else [0]) = [0] := by
      split_ifs with h1
      · rw [show p.2.toNat = 0 by omega, show 0 + 1 - p.1 = 0 by omega]
        rfl
      · rfl
    rw [hstay]
    exact ih hrest

/-- Every order is a permutation of the dimensions of its rank. It starts with the axis of the rank's
sweep, and what is left, renumbered, is the order of the rank below; without a sweep it starts with the
first dimension and goes on as the rank below. -/
theorem genDimOrders_coherent {sweeps : List (ℕ × ℤ)} {ndim : ℕ} (hkeys : (sweeps.map Prod.fst).Nodup)
    (h : ∀ p ∈ sweeps, 1 ≤ p.1 ∧ p.1 ≤ ndim ∧ 0 ≤ p.2 ∧ p.2 < p.1) :
    (genDimOrders sweeps ndim).length = ndim ∧ ∀ d < ndim,
      ((genDimOrders sweeps ndim).getD d []).Perm (List.range (d + 1)) ∧
      (∀ s : ℕ, (d + 1, (s : ℤ)) ∈ sweeps → ((genDimOrders sweeps ndim).getD d []).head? = some s ∧
        (1 ≤ d → (((genDimOrders sweeps ndim).getD d []).erase s).map (renumber s) =
          (genDimOrders sweeps ndim).getD (d - 1) [])) ∧
      ((∀ s, (d + 1, s) ∉ sweeps) → 1 ≤ d → (genDimOrders sweeps ndim).getD d [] =
        0 :: ((genDimOrders sweeps ndim).getD (d - 1) []).map (· + 1)) := by
  have hmem : ∀ {p}, p ∈ descending sweeps ↔ p ∈ sweeps := (perm_descending sweeps).mem_iff
  have haxes : Axes (descending sweeps) := fun p hp => by
    obtain ⟨h1, _, h0, hlt⟩ := h p (hmem.mp hp)
    exact ⟨h1, h0, hlt⟩
  have hdesc := pairwise_descending hkeys
  have hget : ∀ d, (genDimOrders sweeps ndim)[d]? =
      (basicOrders ndim)[d]?.map fun l => orderAt d l (descending sweeps) :=
    getElem?_foldl_rearrange (fun p hp => (haxes p hp).1) _
  have horder : ∀ d < ndim, (genDimOrders sweeps ndim)[d]? =
      some (orderAt d (List.range (d + 1)) (descending sweeps)) := by
    intro d hd
    rw [hget, basicOrders, List.getElem?_map, List.getElem?_range hd]
    rfl
  have horderD : ∀ d < ndim, (genDimOrders sweeps ndim).getD d [] =
      orderAt d (List.range (d + 1)) (descending sweeps) := by
    intro d hd
    rw [List.getD_eq_getElem?_getD, horder d hd]
    rfl
  have hlength : (genDimOrders sweeps ndim).length = ndim := by
    apply le_antisymm
    · rw [← List.getElem?_eq_none_iff, hget, List.getElem?_eq_none (by rw [basicOrders]; simp)]
      rfl
    · by_contra hlt
      rw [Nat.not_le] at hlt
      have hsome := horder _ hlt
      rw [List.getElem?_eq_none le_rfl] at hsome
      cases hsome
  have haxis : ∀ {r : ℕ} {s : ℕ}, (r, (s : ℤ)) ∈ sweeps → axisOf (descending sweeps) r = s := by
    intro r s hs
    rw [axisOf, lookup_eq_of_mem_descending hdesc (hmem.mpr hs)]
    rfl
  have hnone : ∀ {r : ℕ}, (∀ s, (r, s) ∉ sweeps) → axisOf (descending sweeps) r = 0 := by
    intro r hr
    have hlookup : (descending sweeps).lookup r = none := by
      rw [List.lookup_eq_none_iff]
      intro p hp
      rw [bne_iff_ne]
      rintro rfl
      exact hr p.2 (hmem.mp hp)
    rw [axisOf, hlookup]
    rfl
  have hbound : ∀ d, axisOf (descending sweeps) (d + 1) ≤ d := by
    intro d
    by_cases hex : ∃ s, (d + 1, s) ∈ sweeps
    · obtain ⟨s, hs⟩ := hex
      obtain ⟨_, _, h0, hlt⟩ := h _ hs
      rw [axisOf, lookup_eq_of_mem_descending hdesc (hmem.mpr hs), Option.getD_some]
      simp only at hlt h0
      omega
    · rw [hnone fun s hs => hex ⟨s, hs⟩]
      exact Nat.zero_le d
  have hperm : ∀ d, (orderAt d (List.range (d + 1)) (descending sweeps)).Perm (List.range (d + 1)) := by
    intro d
    induction d with
    | zero => rw [show List.range (0 + 1) = [0] from rfl, orderAt_zero haxes]
    | succ d ih =>
      rw [orderAt_succ haxes hdesc]
      exact perm_cons_map_skip ih (hbound (d + 1))
  refine ⟨hlength, fun d hd => ⟨?_, fun s hs => ?_, fun hno h1 => ?_⟩⟩
  · rw [horderD d hd]
    exact hperm d
  · rw [horderD d hd]
    cases d with
    | zero =>
      have hs0 : s = 0 := by
        have := (h _ hs).2.2.2
        simp only at this
        omega
      rw [show List.range (0 + 1) = [0] from rfl, orderAt_zero haxes, hs0]
      exact ⟨rfl, fun h1 => absurd h1 (by omega)⟩
    | succ d =>
      rw [horderD (d + 1 - 1) (by omega), Nat.add_sub_cancel, orderAt_succ haxes hdesc, haxis hs]
      refine ⟨rfl, fun _ => ?_⟩
      rw [List.erase_cons_head, List.map_map]
      calc (orderAt d (List.range (d + 1)) (descending sweeps)).map (renumber s ∘ skip s)
          = (orderAt d (List.range (d + 1)) (descending sweeps)).map id :=
            List.map_congr_left fun x _ => renumber_skip s x
        _ = _ := List.map_id _
  · obtain ⟨d, rfl⟩ := Nat.exists_eq_succ_of_ne_zero (by omega : d ≠ 0)
    rw [horderD (d + 1) hd, show d.succ - 1 = d from rfl, horderD d (by omega), orderAt_succ haxes hdesc, hnone hno]
    rfl

/-- Sweeps of ranks two and three of a three-dimensional kernel. -/
theorem genDimOrders_coherent_three :
    genDimOrders [(2, 1), (3, 2)] 3 = [[0], [1, 0], [2, 1, 0]] ∧
      ((genDimOrders [(2, 1), (3, 2)] 3).getD 2 []).Perm (List.range 3) := by
  refine ⟨by decide, ((genDimOrders_coherent ?_ ?_).2 2 (by omega)).1⟩
  · decide
  · decide

end Bohrium.Gpu
