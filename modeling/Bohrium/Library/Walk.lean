import Bohrium.Library.Strided
import Mathlib.Logic.Function.Iterate

/-! # Walking an index space

Work that is shared among workers in consecutive pieces, row-major positions and their coordinates, and
state that is stepped along. -/
namespace Walk
open Strided
set_option autoImplicit false

/-! ## Shares -/

/-- The share of worker `tid` among `w`: where it begins, and how much it is. The first `n % w` workers
have one more. -/
def share (n w tid : ℕ) : ℕ × ℕ :=
  if tid < n % w then (tid * (n / w + 1), n / w + 1) else (tid * (n / w) + n % w, n / w)

theorem share_zero (n w : ℕ) : (share n w 0).1 = 0 := by
  unfold share
  split
  · simp
  · simp only [Nat.zero_mul, Nat.zero_add]
    omega

theorem share_succ (n w tid : ℕ) : (share n w (tid + 1)).1 = (share n w tid).1 + (share n w tid).2 := by
  unfold share
  by_cases h : tid + 1 < n % w
  · rw [if_pos h, if_pos (by omega)]
    simp only
    ring
  · rw [if_neg h]
    by_cases h' : tid < n % w
    · rw [if_pos h']
      have : n % w = tid + 1 := by omega
      simp only [this]
      ring
    · rw [if_neg h']
      simp only
      ring

theorem share_self {n w : ℕ} (hw : 0 < w) : (share n w w).1 = n := by
  unfold share
  rw [if_neg (Nat.not_lt.mpr (Nat.mod_lt n hw).le)]
  exact Nat.div_add_mod n w

theorem share_mono (n w : ℕ) : Monotone fun tid => (share n w tid).1 := by
  apply monotone_nat_of_le_succ
  intro tid
  rw [share_succ]
  omega

theorem share_le (n : ℕ) {w tid : ℕ} (hw : 0 < w) (htid : tid < w) : (share n w tid).1 + (share n w tid).2 ≤ n := by
  rw [← share_succ]
  exact (share_mono n w (Nat.succ_le_of_lt htid)).trans_eq (share_self hw)

/-- The shares are consecutive and are all of the work. -/
theorem flatMap_share (n : ℕ) {w : ℕ} (hw : 0 < w) :
    ((List.range w).flatMap fun tid => List.range' (share n w tid).1 (share n w tid).2) = List.range n := by
  have hupto : ∀ k, ((List.range k).flatMap fun tid => List.range' (share n w tid).1 (share n w tid).2) =
      List.range (share n w k).1 := by
    intro k
    induction k with
    | zero => rw [share_zero]; rfl
    | succ k ih =>
      rw [List.range_succ, List.flatMap_append, ih, List.flatMap_singleton, share_succ, List.range_eq_range',
        List.range_eq_range']
      have happ : List.range' 0 (share n w k).1 ++ List.range' (0 + (share n w k).1) (share n w k).2 = _ :=
        List.range'_append_1
      rwa [Nat.zero_add] at happ
  rw [hupto, share_self hw]

theorem map_range_add {α : Type} (f : ℕ → α) (o w : ℕ) :
    ((List.range w).map fun j => f (o + j)) = (List.range' o w).map f := by
  rw [List.range'_eq_map_range, List.map_map]
  rfl

theorem flatMap_range_add {α : Type} (f : ℕ → List α) (o w : ℕ) :
    ((List.range w).flatMap fun j => f (o + j)) = (List.range' o w).flatMap f := by
  rw [List.range'_eq_map_range, List.flatMap_map]

/-- Positions that are counted in chunks. -/
theorem flatMap_range'_mul (o w c : ℕ) :
    ((List.range' o w).flatMap fun i => List.range' (i * c) c) = List.range' (o * c) (w * c) := by
  induction w generalizing o with
  | zero => simp
  | succ w ih =>
    rw [List.range'_succ, List.flatMap_cons, ih]
    have happ : List.range' (o * c) c ++ List.range' (o * c + c) (w * c) = _ := List.range'_append_1
    have ho : (o + 1) * c = o * c + c := by ring
    have hw : c + w * c = (w + 1) * c := by ring
    rw [ho, happ, hw]

/-- The shares of work that is counted in chunks. -/
theorem flatMap_share_mul (n c : ℕ) {w : ℕ} (hw : 0 < w) :
    ((List.range w).flatMap fun tid => List.range' ((share n w tid).1 * c) ((share n w tid).2 * c)) = List.range (n * c) := by
  have hshare := congrArg (List.flatMap fun i => List.range' (i * c) c) (flatMap_share n hw)
  rw [List.flatMap_assoc] at hshare
  simp only [flatMap_range'_mul] at hshare
  rw [hshare, List.range_eq_range', flatMap_range'_mul, Nat.zero_mul, List.range_eq_range']

/-! ## Coordinates -/

/-- The coordinates of a row-major position. -/
def coords : List ℕ → ℕ → List ℕ
  | [], _ => []
  | n :: ns, k => k / ns.prod % n :: coords ns k

theorem coords_add_mul (ns : List ℕ) (i k : ℕ) (h : ns.prod ≠ 0) : coords ns (i * ns.prod + k) = coords ns k := by
  induction ns generalizing i with
  | nil => rfl
  | cons n ns ih =>
    rw [List.prod_cons] at h ⊢
    have hp : 0 < ns.prod := Nat.pos_of_ne_zero fun h0 => h (by rw [h0, Nat.mul_zero])
    have hmul : i * (n * ns.prod) + k = i * n * ns.prod + k := by ring
    rw [coords, coords, hmul, ih (i * n) hp.ne', Nat.add_comm, Nat.add_mul_div_right _ _ hp, Nat.add_mul_mod_self_right]

theorem coords_flatIndex {ns idx : List ℕ} (h : idx ∈ indices ns) : coords ns (flatIndex ns idx) = idx := by
  induction ns generalizing idx with
  | nil =>
    rw [indices, List.mem_singleton] at h
    rw [h]
    rfl
  | cons n ns ih =>
    rw [mem_indices] at h
    cases h with
    | cons hi his =>
      rename_i i is
      rw [← mem_indices] at his
      have hlt : flatIndex ns is < ns.prod := by
        have := (List.getElem?_eq_some_iff.mp (getElem?_flatIndex his)).1
        rwa [length_indices] at this
      have hp : 0 < ns.prod := by omega
      rw [flatIndex, coords, coords_add_mul _ _ _ hp.ne', ih his, Nat.add_comm, Nat.add_mul_div_right _ _ hp,
        Nat.div_eq_of_lt hlt, Nat.zero_add, Nat.mod_eq_of_lt hi]

/-- The positions in order are the index tuples in order. -/
theorem map_coords (ns : List ℕ) : (List.range ns.prod).map (coords ns) = indices ns := by
  apply List.ext_getElem
  · rw [List.length_map, List.length_range, length_indices]
  · intro k _ hk
    have hmem : (indices ns)[k] ∈ indices ns := List.getElem_mem hk
    obtain ⟨hlt, hget⟩ := List.getElem?_eq_some_iff.mp (getElem?_flatIndex hmem)
    have hflat := (nodup_indices ns).getElem_inj_iff.mp hget
    rw [List.getElem_map, List.getElem_range, ← coords_flatIndex hmem, hflat]

theorem coords_mem {ns : List ℕ} {k : ℕ} (hk : k < ns.prod) : coords ns k ∈ indices ns := by
  rw [← map_coords]
  exact List.mem_map_of_mem (List.mem_range.mpr hk)

theorem flatIndex_coords {ns : List ℕ} {k : ℕ} (hk : k < ns.prod) : flatIndex ns (coords ns k) = k := by
  obtain ⟨_, hget⟩ := List.getElem?_eq_some_iff.mp (getElem?_flatIndex (coords_mem hk))
  have hk' : k < (indices ns).length := by rwa [length_indices]
  have hk'' : (indices ns)[k] = coords ns k := by simp only [← map_coords, List.getElem_map, List.getElem_range]
  exact (nodup_indices ns).getElem_inj_iff.mp (hget.trans hk''.symm)

/-- The last coordinate counts within a row. -/
theorem coords_append (ns : List ℕ) {c i : ℕ} (e : ℕ) (hi : i < c) : coords (ns ++ [c]) (e * c + i) = coords ns e ++ [i] := by
  have hc : 0 < c := by omega
  induction ns with
  | nil =>
    have hone : ([] : List ℕ).prod = 1 := rfl
    simp only [List.nil_append, coords, hone, Nat.div_one]
    rw [Nat.add_comm, Nat.add_mul_mod_self_right, Nat.mod_eq_of_lt hi]
  | cons n ns ih =>
    rw [List.cons_append, coords, coords, ih, List.prod_append, List.prod_singleton, List.cons_append]
    congr 2
    rw [Nat.mul_comm ns.prod, ← Nat.div_div_eq_div_mul, Nat.add_comm, Nat.add_mul_div_right _ _ hc, Nat.div_eq_of_lt hi,
      Nat.zero_add]

theorem zero_lt_prod {ns : List ℕ} (h : ∀ n ∈ ns, 0 < n) : 0 < ns.prod := by
  apply Nat.pos_of_ne_zero
  apply List.prod_ne_zero
  intro h0
  exact absurd (h 0 h0) (lt_irrefl 0)

theorem length_coords (ns : List ℕ) (k : ℕ) : (coords ns k).length = ns.length := by
  induction ns with
  | nil => rfl
  | cons n ns ih => rw [coords, List.length_cons, List.length_cons, ih]

/-! ## One coordinate apart -/

theorem flatMap_map_swap {α β γ : Type} (f : α → β → γ) (l : List α) (l' : List β) :
    (l.flatMap fun x => l'.map (f x)).Perm (l'.flatMap fun y => l.map fun x => f x y) := by
  induction l with
  | nil => simp
  | cons x l ih =>
    rw [List.flatMap_cons]
    exact (ih.append_left (l'.map (f x))).trans (List.map_append_flatMap_perm l' (f x) _)

theorem flatMap_map_inj {α β γ : Type} {f g : α → β → γ} {l : List α} {l' : List β}
    (h : (l.flatMap fun x => l'.map (f x)) = l.flatMap fun x => l'.map (g x)) : ∀ x ∈ l, ∀ y ∈ l', f x y = g x y := by
  induction l with
  | nil => simp
  | cons x l ih =>
    rw [List.flatMap_cons, List.flatMap_cons] at h
    obtain ⟨h1, h2⟩ := List.append_inj h (by simp)
    rw [List.forall_mem_cons]
    exact ⟨List.map_inj_left.mp h1, ih h2⟩

/-- The index tuples, by their other coordinates and then by one. -/
theorem perm_insertIdx (ns : List ℕ) {k : ℕ} (hk : k < ns.length) :
    ((indices (ns.eraseIdx k)).flatMap fun xs => (List.range (ns.getD k 1)).map fun a => xs.insertIdx k a).Perm (indices ns) := by
  induction ns generalizing k with
  | nil => cases hk
  | cons n ns ih =>
    cases k with
    | zero =>
      simp only [List.eraseIdx_cons_zero, List.getD_cons_zero, List.insertIdx_zero, indices]
      exact flatMap_map_swap (fun xs a => a :: xs) _ _
    | succ k =>
      simp only [List.eraseIdx_cons_succ, List.getD_cons_succ, indices, List.flatMap_assoc, List.flatMap_map,
        List.insertIdx_succ_cons]
      apply List.Perm.flatMap_left
      intro i _
      have := (ih (Nat.lt_of_succ_lt_succ hk)).map (i :: ·)
      rw [List.map_flatMap] at this
      simpa [Function.comp_def] using this

theorem mem_insertIdx {ns idx : List ℕ} {x j : ℕ} (hx : x < ns.length) (hidx : idx ∈ indices (ns.eraseIdx x))
    (hj : j < ns.getD x 1) : idx.insertIdx x j ∈ indices ns := by
  rw [← (perm_insertIdx ns hx).mem_iff, List.mem_flatMap]
  exact ⟨idx, hidx, List.mem_map.mpr ⟨j, List.mem_range.mpr hj, rfl⟩⟩

/-! ## Displacements -/

theorem dot_append {ds : List Dim} {xs : List ℕ} (h : xs.length = ds.length) (d : Dim) (i : ℕ) :
    dot (ds ++ [d]) (xs ++ [i]) = dot ds xs + i * d.stride := by
  induction ds generalizing xs with
  | nil =>
    rw [List.length_eq_zero_iff.mp h]
    simp [dot]
  | cons e ds ih =>
    cases xs with
    | nil => cases h
    | cons x xs =>
      rw [List.cons_append, List.cons_append, dot, dot, ih (Nat.succ.inj h)]
      ring

/-- The displacement as a sum over the dimensions. -/
theorem dot_eq_sum (ds : List Dim) (xs : List ℕ) :
    dot ds xs = ((List.range ds.length).map fun d => (xs.getD d 0 : ℤ) * ((ds[d]?.map Dim.stride).getD 0)).sum := by
  induction ds generalizing xs with
  | nil => cases xs <;> rfl
  | cons e ds ih =>
    rw [List.length_cons, List.range_succ_eq_map, List.map_cons, List.sum_cons, List.map_map]
    cases xs with
    | nil =>
      have hzero : dot (e :: ds) [] = 0 := rfl
      simp [hzero, Function.comp_def]
    | cons x xs =>
      rw [dot, ih xs]
      simp [Function.comp_def]

/-- The same, with the coordinates numbered. -/
theorem dot_eq_zipIdx (ds : List Dim) (xs : List ℕ) :
    dot ds xs = (xs.zipIdx.map fun p => (p.1 : ℤ) * ((ds[p.2]?.map Dim.stride).getD 0)).sum := by
  have hdrop : ∀ i, dot (ds.drop i) xs =
      ((xs.zipIdx i).map fun p => (p.1 : ℤ) * ((ds[p.2]?.map Dim.stride).getD 0)).sum := by
    induction xs with
    | nil =>
      intro i
      cases ds.drop i <;> rfl
    | cons x xs ih =>
      intro i
      rw [List.zipIdx_cons, List.map_cons, List.sum_cons, ← ih (i + 1)]
      cases hd : ds[i]? with
      | none =>
        have hle := List.getElem?_eq_none_iff.mp hd
        rw [List.drop_eq_nil_of_le hle, List.drop_eq_nil_of_le (by omega)]
        cases xs <;> simp [dot]
      | some d =>
        obtain ⟨hlt, rfl⟩ := List.getElem?_eq_some_iff.mp hd
        rw [List.drop_eq_getElem_cons hlt, dot]
        simp
  simpa using hdrop 0

/-- The displacement of an index with one coordinate singled out. -/
theorem dot_insertIdx (ds : List Dim) (xs : List ℕ) {k : ℕ} (hk : k ≤ xs.length) (hlen : ds.length = xs.length + 1) (a : ℕ) :
    dot ds (xs.insertIdx k a) = a * ((ds[k]?.map Dim.stride).getD 0) +
      ((xs.zip ((List.range ds.length).eraseIdx k)).map fun p => (p.1 : ℤ) * ((ds[p.2]?.map Dim.stride).getD 0)).sum := by
  induction ds generalizing xs k with
  | nil => cases hlen
  | cons e ds ih =>
    have hlen' : ds.length = xs.length := Nat.succ.inj hlen
    rw [List.length_cons, List.range_succ_eq_map]
    cases k with
    | zero =>
      rw [List.insertIdx_zero, dot, List.eraseIdx_cons_zero, List.zip_map_right, List.map_map, hlen', dot_eq_zipIdx,
        List.zipIdx_eq_zip_range', ← List.range_eq_range']
      simp [Function.comp_def]
    | succ k =>
      cases xs with
      | nil => cases hk
      | cons x xs =>
        rw [List.insertIdx_succ_cons, dot, ih xs (Nat.le_of_succ_le_succ hk) hlen', List.eraseIdx_cons_succ, List.zip_cons_cons,
          List.map_cons, List.sum_cons]
        have herase : ((List.range ds.length).map Nat.succ).eraseIdx k = ((List.range ds.length).eraseIdx k).map Nat.succ :=
          List.eraseIdx_map _ _ _
        rw [herase, List.zip_map_right, List.map_map]
        simp [Function.comp_def]
        ring

/-- The strides in two layouts of one shape: they give the same displacements exactly when they agree in every
dimension that is longer than one. -/
theorem dot_eq_iff {ds es : List Dim} {ns : List ℕ} (hpos : ∀ n ∈ ns, 0 < n) (hds : ds.length = ns.length)
    (hes : es.length = ns.length) : (∀ idx ∈ indices ns, dot ds idx = dot es idx) ↔
      ∀ d < ns.length, 1 < ns.getD d 1 → (ds[d]?.map Dim.stride).getD 0 = (es[d]?.map Dim.stride).getD 0 := by
  induction ns generalizing ds es with
  | nil =>
    rw [List.length_eq_zero_iff.mp hds, List.length_eq_zero_iff.mp hes]
    simp
  | cons n ns ih =>
    obtain ⟨d, ds, rfl⟩ := List.exists_cons_of_length_eq_add_one hds
    obtain ⟨e, es, rfl⟩ := List.exists_cons_of_length_eq_add_one hes
    rw [List.forall_mem_cons] at hpos
    have hih := ih hpos.2 (Nat.succ.inj hds) (Nat.succ.inj hes)
    have hcons : ∀ i idx, i :: idx ∈ indices (n :: ns) ↔ i < n ∧ idx ∈ indices ns := by
      intro i idx
      simp [indices]
    constructor
    · intro h
      have htail : ∀ idx ∈ indices ns, dot ds idx = dot es idx := by
        intro idx hidx
        have := h (0 :: idx) ((hcons 0 idx).mpr ⟨hpos.1, hidx⟩)
        simpa [dot] using this
      intro k hk
      cases k with
      | zero =>
        intro hn
        -- one step along the first dimension
        have hfirst : coords ns 0 ∈ indices ns := coords_mem (zero_lt_prod hpos.2)
        have hone := h (1 :: coords ns 0) ((hcons _ _).mpr ⟨hn, hfirst⟩)
        rw [dot, dot, htail _ hfirst] at hone
        simpa using hone
      | succ k => simpa using hih.mp htail k (Nat.lt_of_succ_lt_succ hk)
    · intro h idx hidx
      cases idx with
      | nil => rfl
      | cons i idx =>
        obtain ⟨hi, hidx'⟩ := (hcons i idx).mp hidx
        have htail := hih.mpr (fun k hk => by simpa using h (k + 1) (Nat.succ_lt_succ hk)) idx hidx'
        rw [dot, dot, htail]
        by_cases hn : 1 < n
        · have := h 0 (Nat.succ_pos _) hn
          simp only [List.getElem?_cons_zero, Option.map_some, Option.getD_some] at this
          rw [this]
        · have : i = 0 := by omega
          simp [this]

/-! ## Stepping -/

/-- A state that is a number for each name, stepped by an increment for each. -/
theorem iterate_add {K : Type} (c : K → ℤ) {step : (K → ℤ) → K → ℤ} (h : ∀ p k, step p k = p k + c k) (j : ℕ)
    (p : K → ℤ) (k : K) : (step^[j]) p k = p k + j * c k := by
  induction j with
  | zero => simp
  | succ j ih =>
    rw [Function.iterate_succ_apply', h, ih]
    push_cast
    ring

end Walk
