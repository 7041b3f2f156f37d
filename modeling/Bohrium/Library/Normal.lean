import Bohrium.Library.Strided
import Mathlib.Data.List.Chain

/-! # Normal layouts

A layout is normal when every dimension has two elements or more and none can be merged with the next
one. The addresses of a normal layout determine it: the innermost stride is the distance of the first
two addresses, and the innermost length ends where that distance changes. -/
namespace Strided
set_option autoImplicit false

structure Normal (ds : List Dim) : Prop where
  long : ∀ d ∈ ds, 1 < d.shape
  apart : ds.IsChain fun d e => (e.shape : ℤ) * e.stride ≠ d.stride

variable {s : ℤ} {ds es : List Dim} {d e : Dim}

/-! ## The innermost dimension -/

theorem offsets_concat (s : ℤ) (ds : List Dim) (d : Dim) :
    offsets s (ds ++ [d]) =
      (offsets s ds).flatMap fun o => (List.range d.shape).map fun i : ℕ => o + i * d.stride := by
  induction ds generalizing s with
  | nil => simp [offsets_cons, offsets_nil, List.map_eq_flatMap]
  | cons c ds ih =>
    rw [List.cons_append, offsets_cons, offsets_cons, List.flatMap_assoc]
    exact List.flatMap_congr fun i _ => ih _

theorem getElem?_flatMap_map_range {α β : Type*} (f : α → ℕ → β) {n i : ℕ} (hi : i < n) (l : List α) (j : ℕ) :
    (l.flatMap fun a => (List.range n).map (f a))[j * n + i]? = l[j]?.map fun a => f a i := by
  induction l generalizing j with
  | nil => simp
  | cons a l ih =>
    rw [List.flatMap_cons]
    cases j with
    | zero =>
      rw [List.getElem?_append_left (by simpa using hi)]
      simp [List.getElem?_range hi]
    | succ j =>
      rw [List.getElem?_append_right (by simp; rw [Nat.succ_mul]; omega), List.length_map, List.length_range,
        Nat.succ_mul, show j * n + n + i - n = j * n + i by omega, ih]
      rfl

theorem getElem?_offsets_concat {i : ℕ} (hi : i < d.shape) (j : ℕ) :
    (offsets s (ds ++ [d]))[j * d.shape + i]? = (offsets s ds)[j]?.map fun o => o + i * d.stride := by
  rw [offsets_concat]
  exact getElem?_flatMap_map_range (fun o (i : ℕ) => o + i * d.stride) hi _ j

theorem getElem?_zero_offsets (h : ∀ d ∈ ds, 0 < d.shape) : (offsets s ds)[0]? = some s := by
  induction ds generalizing s with
  | nil => rw [offsets_nil]; rfl
  | cons d ds ih =>
    rw [List.forall_mem_cons] at h
    have hlen : ∀ i : ℕ, (offsets (s + i * d.stride) ds).length = (ds.map Dim.shape).prod :=
      fun i => offsets_length _ ds
    have h0 := @ih s h.2
    have hpos : 0 < (ds.map Dim.shape).prod := by
      rw [← hlen 0]
      simpa using (List.getElem?_eq_some_iff.mp h0).1
    rw [offsets_cons, ← Nat.zero_mul, ← Nat.add_zero (0 * _), getElem?_flatMap_range _ hlen h.1 hpos]
    simpa using h0

theorem Normal.positive (h : Normal ds) : ∀ d ∈ ds, 0 < d.shape := fun d hd => Nat.lt_of_succ_lt (h.long d hd)

theorem Normal.init (h : Normal (ds ++ [d])) : Normal ds :=
  ⟨fun c hc => h.long c (List.mem_append_left _ hc), (List.isChain_append.mp h.apart).1⟩

/-- The second address is one innermost stride behind the first. -/
theorem Normal.getElem?_one (h : Normal (ds ++ [d])) : (offsets s (ds ++ [d]))[1]? = some (s + d.stride) := by
  have hd := h.long d (by simp)
  have h1 := @getElem?_offsets_concat s ds d 1 hd 0
  rw [Nat.zero_mul, Nat.zero_add, getElem?_zero_offsets h.init.positive] at h1
  simpa using h1

/-! ## Growing a normal layout -/

theorem Normal.snoc {fin : List Dim} {cur d : Dim} (h : Normal (fin ++ [cur])) (hd : 1 < d.shape)
    (hne : (d.shape : ℤ) * d.stride ≠ cur.stride) : Normal (fin ++ [cur] ++ [d]) := by
  refine ⟨fun c hc => ?_, ?_⟩
  · rcases List.mem_append.mp hc with hc | hc
    · exact h.long c hc
    · rwa [List.mem_singleton.mp hc]
  · rw [List.append_assoc]
    refine List.isChain_append.mpr ⟨(List.isChain_append.mp h.apart).1,
      List.isChain_cons_cons.mpr ⟨hne, List.isChain_singleton d⟩, ?_⟩
    exact (List.isChain_append.mp h.apart).2.2

theorem Normal.merge {fin : List Dim} {cur d : Dim} (h : Normal (fin ++ [cur])) (hd : 1 < d.shape)
    (heq : (d.shape : ℤ) * d.stride = cur.stride) : Normal (fin ++ [⟨cur.shape * d.shape, d.stride⟩]) := by
  refine ⟨fun c hc => ?_, ?_⟩
  · rcases List.mem_append.mp hc with hc | hc
    · exact h.long c (List.mem_append_left _ hc)
    · rw [List.mem_singleton.mp hc]
      have hcur := h.long cur (by simp)
      calc 1 < cur.shape := hcur
        _ ≤ cur.shape * d.shape := Nat.le_mul_of_pos_right _ (by omega)
  · obtain ⟨hfin, _, hlast⟩ := List.isChain_append.mp h.apart
    refine List.isChain_append.mpr ⟨hfin, List.isChain_singleton _, fun c hc e he => ?_⟩
    have hcur := hlast c hc cur rfl
    rw [← Option.some.inj he]
    push_cast
    rwa [mul_assoc, heq]

/-! ## The addresses determine the layout -/

/-- The run of equal distances ends with the innermost dimension. -/
theorem Normal.shape_le (hd : Normal (ds ++ [d])) (he : Normal (es ++ [e]))
    (heq : offsets s (ds ++ [d]) = offsets s (es ++ [e])) : e.shape ≤ d.shape := by
  have hstride : d.stride = e.stride := by
    have h1 := @Normal.getElem?_one s _ _ hd
    rw [heq, he.getElem?_one] at h1
    simpa using h1.symm
  by_contra hlt
  rw [Nat.not_le] at hlt
  have hd1 := hd.long d (by simp)
  have hleft := @getElem?_offsets_concat s ds d 0 (by omega) 1
  have hright := @getElem?_offsets_concat s es e d.shape hlt 0
  rw [Nat.one_mul, Nat.add_zero, heq] at hleft
  rw [Nat.zero_mul, Nat.zero_add, hleft, getElem?_zero_offsets he.init.positive] at hright
  simp only [Nat.cast_zero, zero_mul, add_zero, Option.map_id', Option.map_some, ← hstride] at hright
  cases ds using List.reverseRecOn with
  | nil => simp [offsets_nil] at hright
  | append_singleton ds c =>
    have hapart : (d.shape : ℤ) * d.stride ≠ c.stride := by
      have hchain := hd.apart
      rw [List.append_assoc] at hchain
      exact (List.isChain_cons_cons.mp (List.isChain_append.mp hchain).2.1).1
    rw [hd.init.getElem?_one] at hright
    apply hapart
    simpa using hright.symm

theorem Normal.ext (hd : Normal ds) (he : Normal es) (heq : offsets s ds = offsets s es) : ds = es := by
  induction ds using List.reverseRecOn generalizing es with
  | nil =>
    cases es using List.reverseRecOn with
    | nil => rfl
    | append_singleton es e =>
      have h1 := @Normal.getElem?_one s _ _ he
      rw [← heq, offsets_nil] at h1
      simp at h1
  | append_singleton ds d ih =>
    cases es using List.reverseRecOn with
    | nil =>
      have h1 := @Normal.getElem?_one s _ _ hd
      rw [heq, offsets_nil] at h1
      simp at h1
    | append_singleton es e =>
      have hshape : d.shape = e.shape := le_antisymm (he.shape_le hd heq.symm) (hd.shape_le he heq)
      have hstride : d.stride = e.stride := by
        have h1 := @Normal.getElem?_one s _ _ hd
        rw [heq, he.getElem?_one] at h1
        simpa using h1.symm
      have hde : d = e := by cases d; cases e; simp_all
      subst hde
      have hd1 := hd.long d (by simp)
      have hrest : offsets s ds = offsets s es := by
        apply List.ext_getElem?
        intro j
        have hj := @getElem?_offsets_concat s ds d 0 (by omega) j
        rw [heq, getElem?_offsets_concat (by omega)] at hj
        simpa using hj.symm
      rw [ih hd.init he.init hrest]

end Strided
