import Bohrium.Library.Walk
import Mathlib.Data.List.GetD

/-! # Layouts that show the same elements

Two layouts of one shape show the same elements if they start at the same one and their strides agree in
every dimension with more than one element. A map of index tuples (a slice, a transposition, a broadcast)
carries over to the layouts: it is a layout again that shows the elements at the mapped tuples. -/
namespace Layout
open Strided Walk
set_option autoImplicit false

variable {ds es : List Dim} {ns idx : List ℕ}

/-- Layouts of one shape with the same strides where a stride matters. -/
def Alike : List Dim → List Dim → Prop :=
  List.Forall₂ fun d e => d.shape = e.shape ∧ (1 < d.shape → d.stride = e.stride)

instance (ds es : List Dim) : Decidable (Alike ds es) := inferInstanceAs (Decidable (List.Forall₂ _ _ _))

theorem Alike.symm (h : Alike ds es) : Alike es ds := by
  induction h with
  | nil => exact List.Forall₂.nil
  | cons hd _ ih => exact List.Forall₂.cons ⟨hd.1.symm, fun hlt => (hd.2 (hd.1 ▸ hlt)).symm⟩ ih

theorem alike_iff_getD (hshape : ds.map Dim.shape = es.map Dim.shape) : Alike ds es ↔
    ∀ d < (ds.map Dim.shape).length, 1 < (ds.map Dim.shape).getD d 1 →
      (ds[d]?.map Dim.stride).getD 0 = (es[d]?.map Dim.stride).getD 0 := by
  induction ds generalizing es with
  | nil =>
    rw [List.map_eq_nil_iff.mp hshape.symm]
    exact iff_of_true List.Forall₂.nil fun d hd => absurd hd (Nat.not_lt_zero d)
  | cons d ds ih =>
    cases es with
    | nil => cases hshape
    | cons e es =>
      obtain ⟨hde, hrest⟩ := List.cons.inj hshape
      rw [Alike, List.forall₂_cons, and_iff_right hde]
      constructor
      · rintro ⟨hd, h⟩ k hk
        cases k with
        | zero => simpa using hd
        | succ k => simpa using (ih hrest).mp h k (by simpa using hk)
      · intro h
        refine ⟨by simpa using h 0 (by simp), (ih hrest).mpr fun k hk => ?_⟩
        simpa using h (k + 1) (by simpa using hk)

theorem dot_replicate_zero (ds : List Dim) (n : ℕ) : dot ds (List.replicate n 0) = 0 := by
  induction ds generalizing n with
  | nil => cases n <;> rfl
  | cons d ds ih =>
    cases n with
    | zero => rfl
    | succ n => simp [List.replicate_succ, dot, ih]

/-- Two layouts with an element show the same ones exactly if they start at the same one and agree. -/
theorem shows_iff (hpos : ∀ d ∈ ds, 0 < d.shape) (hshape : ds.map Dim.shape = es.map Dim.shape) (s t : ℤ) :
    (∀ idx ∈ indices (ds.map Dim.shape), s + dot ds idx = t + dot es idx) ↔ s = t ∧ Alike ds es := by
  have hpos' : ∀ n ∈ ds.map Dim.shape, 0 < n := by simpa using hpos
  have hlen : es.length = (ds.map Dim.shape).length := by rw [hshape, List.length_map]
  rw [alike_iff_getD hshape, ← dot_eq_iff hpos' (List.length_map _).symm hlen]
  constructor
  · intro h
    have hzero : List.replicate ds.length 0 ∈ indices (ds.map Dim.shape) := by
      rw [mem_indices, List.forall₂_iff_get]
      refine ⟨by simp, fun i h1 h2 => ?_⟩
      simpa using hpos' _ (List.get_mem _ ⟨i, h2⟩)
    have hst : s = t := by simpa [dot_replicate_zero] using h _ hzero
    refine ⟨hst, fun idx hidx => ?_⟩
    have := h idx hidx
    omega
  · rintro ⟨rfl, h⟩ idx hidx
    rw [h idx hidx]

/-- The layout of a shape without gaps, in row-major order. -/
def packed : List ℕ → List Dim
  | [] => []
  | n :: ns => ⟨n, ns.prod⟩ :: packed ns

theorem shape_packed (ns : List ℕ) : (packed ns).map Dim.shape = ns := by
  induction ns with
  | nil => rfl
  | cons n ns ih => rw [packed, List.map_cons, ih]

theorem dot_packed (ns idx : List ℕ) : dot (packed ns) idx = flatIndex ns idx := by
  induction ns generalizing idx with
  | nil => cases idx <;> rfl
  | cons n ns ih =>
    cases idx with
    | nil => rfl
    | cons i idx =>
      rw [packed, dot, flatIndex, ih]
      push_cast
      rfl

/-! ## Maps of index tuples -/

/-- Every `step`-th element of dimension `k`. -/
theorem dot_modify {k : ℕ} {d : Dim} (hd : ds[k]? = some d) (hlen : idx.length = ds.length) (n first step : ℕ) :
    dot ds (idx.modify k fun i => first + i * step) = first * d.stride + dot (ds.set k ⟨n, d.stride * step⟩) idx := by
  induction ds generalizing k idx with
  | nil => cases hd
  | cons e ds ih =>
    obtain ⟨i, idx, rfl⟩ := List.exists_cons_of_length_eq_add_one hlen
    cases k with
    | zero =>
      obtain rfl := Option.some.inj hd
      simp only [List.modify_zero_cons, List.set_cons_zero, dot]
      push_cast
      ring
    | succ k =>
      rw [List.modify_succ_cons, List.set_cons_succ, dot, dot, ih hd (Nat.succ.inj hlen)]
      ring

theorem dot_reverse (hlen : idx.length = ds.length) : dot ds.reverse idx.reverse = dot ds idx := by
  induction ds generalizing idx with
  | nil =>
    rw [List.length_eq_zero_iff.mp hlen]
    rfl
  | cons d ds ih =>
    obtain ⟨i, idx, rfl⟩ := List.exists_cons_of_length_eq_add_one hlen
    have hlen' : idx.length = ds.length := Nat.succ.inj hlen
    rw [List.reverse_cons, List.reverse_cons, dot_append (by simpa using hlen'), ih hlen', dot]
    ring

/-! ## Broadcasting -/

/-- The lengths `ns` are widened to the lengths `os`: each is the same or one. -/
def BroadcastsTo : List ℕ → List ℕ → Prop
  | [], _ => True
  | _ :: _, [] => False
  | n :: ns, o :: os => (n = o ∨ n = 1) ∧ BroadcastsTo ns os

instance decidableBroadcastsTo : (ns os : List ℕ) → Decidable (BroadcastsTo ns os)
  | [], _ => isTrue trivial
  | _ :: _, [] => isFalse id
  | n :: ns, o :: os =>
    have := decidableBroadcastsTo ns os
    inferInstanceAs (Decidable ((n = o ∨ n = 1) ∧ BroadcastsTo ns os))

theorem BroadcastsTo.length_le {ns os : List ℕ} (h : BroadcastsTo ns os) : ns.length ≤ os.length := by
  induction ns generalizing os with
  | nil => exact Nat.zero_le _
  | cons n ns ih =>
    cases os with
    | nil => exact h.elim
    | cons o os => exact Nat.succ_le_succ (ih h.2)

theorem broadcastsTo_refl (ns : List ℕ) : BroadcastsTo ns ns := by
  induction ns with
  | nil => trivial
  | cons n ns ih => exact ⟨Or.inl rfl, ih⟩

theorem BroadcastsTo.trans {ns ms os : List ℕ} (h : BroadcastsTo ns ms) (h' : BroadcastsTo ms os) :
    BroadcastsTo ns os := by
  induction ns generalizing ms os with
  | nil => trivial
  | cons n ns ih =>
    cases ms with
    | nil => exact h.elim
    | cons m ms =>
      cases os with
      | nil => exact h'.elim
      | cons o os =>
        refine ⟨?_, ih h.2 h'.2⟩
        have h1 := h.1
        have h2 := h'.1
        omega

theorem BroadcastsTo.antisymm {ns os : List ℕ} (h : BroadcastsTo ns os) (h' : BroadcastsTo os ns) : ns = os := by
  induction ns generalizing os with
  | nil => exact (List.length_eq_zero_iff.mp (Nat.le_zero.mp h'.length_le)).symm
  | cons n ns ih =>
    cases os with
    | nil => exact h.elim
    | cons o os =>
      have h1 := h.1
      have h2 := h'.1
      rw [ih h.2 h'.2, show n = o by omega]

/-- The least lengths that two lists of lengths are widened to. -/
def join : List ℕ → List ℕ → Option (List ℕ)
  | [], os => some os
  | ns, [] => some ns
  | n :: ns, o :: os => if n = o ∨ n = 1 ∨ o = 1 then (join ns os).map ((if n = 1 then o else n) :: ·) else none

theorem join_eq_some {ns os ms : List ℕ} (h : join ns os = some ms) : BroadcastsTo ns ms ∧ BroadcastsTo os ms := by
  induction ns generalizing os ms with
  | nil =>
    obtain rfl := Option.some.inj h
    exact ⟨trivial, broadcastsTo_refl _⟩
  | cons n ns ih =>
    cases os with
    | nil =>
      obtain rfl := Option.some.inj h
      exact ⟨broadcastsTo_refl _, trivial⟩
    | cons o os =>
      rw [join] at h
      by_cases hno : n = o ∨ n = 1 ∨ o = 1
      · rw [if_pos hno] at h
        obtain ⟨ms, hms, rfl⟩ := Option.map_eq_some_iff.mp h
        obtain ⟨h1, h2⟩ := ih hms
        refine ⟨⟨?_, h1⟩, ⟨?_, h2⟩⟩
        · split_ifs <;> omega
        · split_ifs <;> omega
      · rw [if_neg hno] at h
        cases h

/-- It is below every list that both are widened to. -/
theorem join_of_le {ns os ts : List ℕ} (h : BroadcastsTo ns ts) (h' : BroadcastsTo os ts) :
    ∃ ms, join ns os = some ms ∧ BroadcastsTo ms ts := by
  induction ns generalizing os ts with
  | nil => exact ⟨os, rfl, h'⟩
  | cons n ns ih =>
    cases os with
    | nil => exact ⟨_, rfl, h⟩
    | cons o os =>
      cases ts with
      | nil => exact h.elim
      | cons t ts =>
        obtain ⟨ms, hms, hle⟩ := ih h.2 h'.2
        have h1 := h.1
        have h2 := h'.1
        refine ⟨(if n = 1 then o else n) :: ms, ?_, ?_, hle⟩
        · rw [join, if_pos (by omega), hms]
          rfl
        · split_ifs <;> omega

/-- Where two lists of lengths cannot be widened to one. -/
theorem join_eq_none_iff {ns os : List ℕ} : join ns os = none ↔
    ∃ i < min ns.length os.length, ns.getD i 1 ≠ os.getD i 1 ∧ ns.getD i 1 ≠ 1 ∧ os.getD i 1 ≠ 1 := by
  induction ns generalizing os with
  | nil => simp [join]
  | cons n ns ih =>
    cases os with
    | nil => simp [join]
    | cons o os =>
      have hsplit : (∃ i < min (n :: ns).length (o :: os).length, (n :: ns).getD i 1 ≠ (o :: os).getD i 1 ∧
          (n :: ns).getD i 1 ≠ 1 ∧ (o :: os).getD i 1 ≠ 1) ↔ (n ≠ o ∧ n ≠ 1 ∧ o ≠ 1) ∨
            ∃ i < min ns.length os.length, ns.getD i 1 ≠ os.getD i 1 ∧ ns.getD i 1 ≠ 1 ∧ os.getD i 1 ≠ 1 := by
        constructor
        · rintro ⟨i, hi, h⟩
          cases i with
          | zero => exact Or.inl h
          | succ i => exact Or.inr ⟨i, by simpa using hi, h⟩
        · rintro (h | ⟨i, hi, h⟩)
          · exact ⟨0, by simp, h⟩
          · exact ⟨i + 1, by simpa using hi, h⟩
      rw [hsplit, ← ih, join]
      split
      · next h =>
        rw [Option.map_eq_none_iff]
        exact ⟨Or.inr, fun h' => h'.resolve_left fun h'' => by omega⟩
      · next h => exact iff_of_true rfl (Or.inl (by omega))

theorem map_getD_range (ns : List ℕ) : ((List.range ns.length).map fun i => ns.getD i 1) = ns := by
  apply List.ext_getElem
  · simp
  · intro i h h'
    simp [List.getD_eq_getElem?_getD, h']

theorem join_eq_map {ns os ms : List ℕ} (h : join ns os = some ms) :
    ms = (List.range (max ns.length os.length)).map fun i => if ns.getD i 1 = 1 then os.getD i 1 else ns.getD i 1 := by
  induction ns generalizing os ms with
  | nil =>
    obtain rfl := Option.some.inj h
    simpa using (map_getD_range os).symm
  | cons n ns ih =>
    cases os with
    | nil =>
      obtain rfl := Option.some.inj h
      have hself : ∀ i, (if (n :: ns).getD i 1 = 1 then [].getD i 1 else (n :: ns).getD i 1) = (n :: ns).getD i 1 := by
        intro i
        split
        · next h1 => rw [h1]; rfl
        · rfl
      simp only [hself, List.length_nil, Nat.max_zero]
      exact (map_getD_range (n :: ns)).symm
    | cons o os =>
      rw [join] at h
      split at h
      · obtain ⟨rest, hrest, rfl⟩ := Option.map_eq_some_iff.mp h
        rw [List.length_cons, List.length_cons, Nat.succ_max_succ, List.range_succ_eq_map, List.map_cons, List.map_map,
          ih hrest]
        rfl
      · simp at h

/-- The least lengths that all lists of lengths are widened to. -/
def joinAll : List (List ℕ) → Option (List ℕ)
  | [] => some []
  | ns :: rest => (joinAll rest).bind (join ns)

theorem joinAll_eq_some {nss : List (List ℕ)} {ms : List ℕ} (h : joinAll nss = some ms) :
    ∀ ns ∈ nss, BroadcastsTo ns ms := by
  induction nss generalizing ms with
  | nil => simp
  | cons ns nss ih =>
    obtain ⟨rs, hrs, hms⟩ := Option.bind_eq_some_iff.mp h
    obtain ⟨h1, h2⟩ := join_eq_some hms
    exact List.forall_mem_cons.mpr ⟨h1, fun os hos => (ih hrs os hos).trans h2⟩

theorem joinAll_of_le {nss : List (List ℕ)} {ts : List ℕ} (h : ∀ ns ∈ nss, BroadcastsTo ns ts) :
    ∃ ms, joinAll nss = some ms ∧ BroadcastsTo ms ts := by
  induction nss with
  | nil => exact ⟨[], rfl, trivial⟩
  | cons ns nss ih =>
    rw [List.forall_mem_cons] at h
    obtain ⟨rs, hrs, hle⟩ := ih h.2
    obtain ⟨ms, hms, hle'⟩ := join_of_le h.1 hle
    exact ⟨ms, by rw [joinAll, hrs]; exact hms, hle'⟩

/-- The element of the narrow array at an index of the wide one. -/
def coordinate (ns idx : List ℕ) : List ℕ := List.zipWith (fun n i => if n = 1 then 0 else i) ns idx

theorem coordinate_mem {ns os : List ℕ} (h : BroadcastsTo ns os) (hidx : idx ∈ indices os) :
    coordinate ns idx ∈ indices ns := by
  rw [mem_indices] at hidx ⊢
  induction ns generalizing os idx with
  | nil => exact List.Forall₂.nil
  | cons n ns ih =>
    cases hidx with
    | nil => exact h.elim
    | @cons i o idx os hi hrest =>
      refine List.Forall₂.cons ?_ (ih h.2 hrest)
      have h1 := h.1
      show (if n = 1 then 0 else i) < n
      split_ifs <;> omega

theorem coordinate_self (hidx : idx ∈ indices ns) : coordinate ns idx = idx := by
  rw [mem_indices] at hidx
  induction hidx with
  | nil => rfl
  | @cons i n idx ns hi _ ih =>
    have hfirst : (if n = 1 then 0 else i) = i := by split_ifs <;> omega
    show (if n = 1 then 0 else i) :: coordinate ns idx = i :: idx
    rw [hfirst, ih]

theorem coordinate_coordinate {ns ms : List ℕ} (h : BroadcastsTo ns ms) (idx : List ℕ) :
    coordinate ns (coordinate ms idx) = coordinate ns idx := by
  induction ns generalizing ms idx with
  | nil => rfl
  | cons n ns ih =>
    cases ms with
    | nil => exact h.elim
    | cons m ms =>
      cases idx with
      | nil => rfl
      | cons i idx =>
        show (if n = 1 then 0 else if m = 1 then 0 else i) :: coordinate ns (coordinate ms idx) =
          (if n = 1 then 0 else i) :: coordinate ns idx
        have h1 := h.1
        rw [ih h.2]
        split_ifs <;> first | rfl | omega

/-- The layout that shows a narrow layout in the lengths `os`. -/
def widen : List ℕ → List Dim → List Dim
  | [], _ => []
  | o :: os, [] => ⟨o, 0⟩ :: widen os []
  | o :: os, d :: ds => ⟨o, if d.shape = 1 then 0 else d.stride⟩ :: widen os ds

theorem shape_widen (os : List ℕ) (ds : List Dim) : (widen os ds).map Dim.shape = os := by
  induction os generalizing ds with
  | nil => rfl
  | cons o os ih => cases ds <;> simp [widen, ih]

theorem dot_widen {os : List ℕ} (hlen : idx.length = os.length) (hds : ds.length ≤ os.length) :
    dot (widen os ds) idx = dot ds (coordinate (ds.map Dim.shape) idx) := by
  induction os generalizing ds idx with
  | nil =>
    rw [List.length_eq_zero_iff.mp (Nat.le_zero.mp hds)]
    rfl
  | cons o os ih =>
    obtain ⟨i, idx, rfl⟩ := List.exists_cons_of_length_eq_add_one hlen
    cases ds with
    | nil =>
      have hrest := @ih [] idx (Nat.succ.inj hlen) (Nat.zero_le _)
      have hzero : dot [] (coordinate (List.map Dim.shape []) idx) = 0 := rfl
      rw [widen, dot, hrest, hzero]
      simp [dot]
    | cons d ds =>
      rw [widen, dot, ih (Nat.succ.inj hlen) (Nat.le_of_succ_le_succ hds)]
      simp only [List.map_cons, coordinate, List.zipWith_cons_cons, dot]
      split_ifs <;> simp

end Layout
