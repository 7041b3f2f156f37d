import Mathlib.Data.List.Basic
import Mathlib.Data.List.Nodup
import Mathlib.Algebra.BigOperators.Ring.List
import Mathlib.Algebra.Order.Ring.Int
import Mathlib.Tactic.Ring

/-! # Strided layouts

A layout is a list of dimensions, each with a length and a signed stride. `indices` lists the
index tuples of a shape in row-major order, `dot` is the displacement of an index tuple, and
`offsets` lists the addresses of a layout in row-major order. The three rewriting rules of
layouts are here: a dimension of length one is dropped (`offsets_one`), a dimension of length zero
empties the layout (`offsets_zero`), and an outer dimension whose stride spans the inner one is
merged with it (`offsets_merge`). -/
namespace Strided
set_option autoImplicit false

/-- One dimension of a layout. -/
structure Dim where
  shape : ℕ
  stride : ℤ
  deriving DecidableEq, Repr

/-- The index tuples of a shape, in row-major order. -/
def indices : List ℕ → List (List ℕ)
  | [] => [[]]
  | n :: ns => (List.range n).flatMap fun i => (indices ns).map (i :: ·)

/-- The displacement of an index tuple. -/
def dot : List Dim → List ℕ → ℤ
  | d :: ds, i :: is => i * d.stride + dot ds is
  | _, _ => 0

/-- The addresses of a layout that starts at `s`, in row-major order. -/
def offsets (s : ℤ) (ds : List Dim) : List ℤ :=
  (indices (ds.map Dim.shape)).map fun idx => s + dot ds idx

/-- The position of an index tuple in row-major order. -/
def flatIndex : List ℕ → List ℕ → ℕ
  | _ :: ns, i :: is => i * ns.prod + flatIndex ns is
  | _, _ => 0

/-! ## Index tuples -/

theorem mem_indices {ns : List ℕ} {idx : List ℕ} :
    idx ∈ indices ns ↔ List.Forall₂ (· < ·) idx ns := by
  induction ns generalizing idx with
  | nil => simp [indices]
  | cons n ns ih =>
    simp only [indices, List.mem_flatMap, List.mem_range, List.mem_map, ih]
    constructor
    · rintro ⟨i, hi, is, his, rfl⟩
      exact List.Forall₂.cons hi his
    · intro h
      cases h with
      | cons hi his => exact ⟨_, hi, _, his, rfl⟩

theorem nodup_indices (ns : List ℕ) : (indices ns).Nodup := by
  induction ns with
  | nil => simp [indices]
  | cons n ns ih =>
    rw [indices, List.nodup_flatMap]
    refine ⟨fun i _ => ih.map (fun a b h => (List.cons.inj h).2), ?_⟩
    refine List.Pairwise.imp ?_ List.nodup_range
    intro i j hij idx hi hj
    obtain ⟨is, _, rfl⟩ := List.mem_map.mp hi
    obtain ⟨js, _, hjs⟩ := List.mem_map.mp hj
    exact hij (List.cons.inj hjs).1.symm

theorem length_indices (ns : List ℕ) : (indices ns).length = ns.prod := by
  induction ns with
  | nil => rfl
  | cons n ns ih => simp [indices, List.length_flatMap, ih]

/-- Blocks of one length, one behind the other. -/
theorem getElem?_flatMap_range {α : Type*} (g : ℕ → List α) {n len i j : ℕ}
    (hg : ∀ i, (g i).length = len) (hi : i < n) (hj : j < len) :
    ((List.range n).flatMap g)[i * len + j]? = (g i)[j]? := by
  induction n with
  | zero => omega
  | succ n ih =>
    have hlen : ((List.range n).flatMap g).length = n * len := by simp [List.length_flatMap, hg]
    rw [List.range_succ, List.flatMap_append, List.flatMap_singleton]
    rcases Nat.lt_succ_iff_lt_or_eq.mp hi with hi | rfl
    · rw [List.getElem?_append_left, ih hi]
      calc i * len + j < (i + 1) * len := by rw [Nat.succ_mul]; omega
        _ ≤ n * len := Nat.mul_le_mul_right len hi
        _ = _ := hlen.symm
    · rw [List.getElem?_append_right (by omega), hlen, Nat.add_sub_cancel_left]

/-- `flatIndex` is the position in the list of index tuples. -/
theorem getElem?_flatIndex {ns idx : List ℕ} (h : idx ∈ indices ns) :
    (indices ns)[flatIndex ns idx]? = some idx := by
  induction ns generalizing idx with
  | nil =>
    rw [indices, List.mem_singleton] at h
    subst h
    rfl
  | cons n ns ih =>
    cases mem_indices.mp h with
    | @cons i _ is _ hi his =>
      have hrest := ih (mem_indices.mpr his)
      have hlt : flatIndex ns is < ns.prod := by
        rw [← length_indices]
        exact (List.getElem?_eq_some_iff.mp hrest).1
      rw [indices, flatIndex, getElem?_flatMap_range _ (fun i => by rw [List.length_map, length_indices]) hi hlt,
        List.getElem?_map, hrest]
      rfl

theorem flatIndex_inj {ns idx idx' : List ℕ} (h : idx ∈ indices ns) (h' : idx' ∈ indices ns)
    (he : flatIndex ns idx = flatIndex ns idx') : idx = idx' := by
  have hget := getElem?_flatIndex h
  rw [he, getElem?_flatIndex h', Option.some.injEq] at hget
  exact hget.symm

/-! ## Addresses -/

theorem offsets_nil (s : ℤ) : offsets s [] = [s] := by simp [offsets, indices, dot]

theorem offsets_cons (s : ℤ) (d : Dim) (ds : List Dim) :
    offsets s (d :: ds) = (List.range d.shape).flatMap fun i : ℕ => offsets (s + i * d.stride) ds := by
  simp only [offsets, List.map_cons, indices, List.map_flatMap, List.map_map]
  refine List.flatMap_congr fun i _ => List.map_congr_left fun idx _ => ?_
  simp only [Function.comp_apply, dot]
  ring

theorem mem_offsets_cons {s o : ℤ} {d : Dim} {ds : List Dim} :
    o ∈ offsets s (d :: ds) ↔ ∃ i : ℕ, i < d.shape ∧ o ∈ offsets (s + i * d.stride) ds := by
  simp [offsets_cons]

theorem offsets_length (s : ℤ) (ds : List Dim) :
    (offsets s ds).length = (ds.map Dim.shape).prod := by
  induction ds generalizing s with
  | nil => simp [offsets_nil]
  | cons d ds ih => simp [offsets_cons, List.length_flatMap, ih]

/-- Two layouts that agree from every start agree behind a common prefix of dimensions. -/
theorem offsets_append_congr {ds es : List Dim} (h : ∀ s, offsets s ds = offsets s es)
    (pre : List Dim) (s : ℤ) : offsets s (pre ++ ds) = offsets s (pre ++ es) := by
  induction pre generalizing s with
  | nil => exact h s
  | cons d pre ih =>
    rw [List.cons_append, List.cons_append, offsets_cons, offsets_cons]
    exact List.flatMap_congr fun i _ => ih _

theorem offsets_one (s : ℤ) (d : Dim) (ds : List Dim) (h : d.shape = 1) :
    offsets s (d :: ds) = offsets s ds := by
  simp [offsets_cons, h]

theorem offsets_zero (s : ℤ) (ds : List Dim) (h : ∃ d ∈ ds, d.shape = 0) : offsets s ds = [] := by
  obtain ⟨d, hd, hz⟩ := h
  rw [List.eq_nil_iff_length_eq_zero, offsets_length]
  exact List.prod_eq_zero (List.mem_map.mpr ⟨d, hd, hz⟩)

/-- Counting to `n * m` is counting to `m`, `n` times. -/
theorem range_mul_flatMap {α : Type*} (n m : ℕ) (f : ℕ → List α) :
    (List.range (n * m)).flatMap f =
      (List.range n).flatMap fun i => (List.range m).flatMap fun j => f (i * m + j) := by
  induction n with
  | zero => simp
  | succ n ih =>
    rw [Nat.succ_mul, List.range_add, List.flatMap_append, ih, List.range_succ,
      List.flatMap_append, List.flatMap_singleton, List.flatMap_map]

theorem offsets_merge (s : ℤ) (d e : Dim) (ds : List Dim) (h : e.shape * e.stride = d.stride) :
    offsets s (⟨d.shape * e.shape, e.stride⟩ :: ds) = offsets s (d :: e :: ds) := by
  simp only [offsets_cons, range_mul_flatMap]
  refine List.flatMap_congr fun i _ => List.flatMap_congr fun j _ => ?_
  congr 1
  rw [← h]
  push_cast
  ring

end Strided
