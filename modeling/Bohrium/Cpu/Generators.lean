import Bohrium.Cpu.Visits

/-! # Generators

`BH_RANGE` and `BH_RANDOM` name the variable `eidx` of the walker they are put in (`_range` and `_random`,
`ve/cpu/codegen/lang.cpp`). It is the number of the element in the walkers that flatten the space, and that of
the first element of the row in those that go by rows. -/
namespace Bohrium.Cpu
open Engine Strided Walk
set_option autoImplicit false

/-- A generator, alone or fused with elementwise codes. -/
structure Generates (b : Block) : Prop where
  generator : ∃ tac ∈ b.tacs, tac.op = .generate ∧ (tac.oper = .range ∨ tac.oper = .random)
  ewise : ∀ tac ∈ b.tacs, isArrayOp tac.op = true → isEwise tac.op = true

/-- Wherever the operations of the kernel are evaluated, `eidx` is the number of the element. -/
def OwnIndex (b : Block) (mthreads : ℕ) : Prop :=
  ∃ t, b.template = some t ∧ ∀ v ∈ (b.visits mthreads t).flatten, v.eidx = flatIndex b.iterspace.shape v.index

/-! ## The layout of the space -/

section Layout
variable {g : ℕ → Opd} {it : Iterspace} {tac : Tac}

theorem dominate_ne_strided {k : ℕ} (hit : it.layout ≠ .strided) (hk : (g k).layout ≠ .strided) :
    (dominate g it k).layout ≠ .strided := by
  unfold dominate
  split_ifs
  · exact hk
  · exact hk
  · exact hit

theorem updateTac_ne_strided (hit : it.layout ≠ .strided) (hop : isArrayOp tac.op = true → isEwise tac.op = true)
    (hall : ∀ k ∈ outerOpds tac, (g k).layout ≠ .strided) : (updateTac g it tac).layout ≠ .strided := by
  unfold updateTac
  split
  · exact hit
  · rename_i harr
    rw [Bool.not_eq_false] at harr
    obtain ⟨_, houter, _, hred⟩ := operandsOf_ewise (hop harr)
    rw [houter] at hall
    rw [hred]
    simp only [Bool.false_eq_true, if_false]
    generalize operandsOf tac = ks at hall
    induction ks generalizing it with
    | nil => exact hit
    | cons k ks ih =>
      rw [List.forall_mem_cons] at hall
      exact ih (dominate_ne_strided hit hall.1) hall.2

theorem updateIterspace_ne_strided {tacs : List Tac} (hit : it.layout ≠ .strided)
    (hop : ∀ tac ∈ tacs, isArrayOp tac.op = true → isEwise tac.op = true)
    (hall : ∀ tac ∈ tacs, ∀ k ∈ outerOpds tac, (g k).layout ≠ .strided) :
    (updateIterspace g tacs it).layout ≠ .strided := by
  unfold updateIterspace
  induction tacs generalizing it with
  | nil => exact hit
  | cons tac tacs ih =>
    rw [List.forall_mem_cons] at hop hall
    exact ih (updateTac_ne_strided hit hop.1 hall.1) hop.2 hall.2

end Layout

section Index
variable {b : Block} {S : List ℕ} {mthreads : ℕ}

/-- The space is strided when an operand was, contracted or not. -/
theorem Fits.strided_iff (h : Fits b S) (hg : Generates b) :
    b.iterspace.layout = .strided ↔ ∃ tac ∈ b.tacs, ∃ k ∈ outerOpds tac, (b.symbols k).layout = .strided := by
  constructor
  · intro hl
    by_contra hno
    push Not at hno
    have hno' : ∀ tac ∈ b.tacs, ∀ k ∈ outerOpds tac, (b.globals k).layout ≠ .strided := by
      intro tac htac k hk
      unfold Block.globals Opd.turnContractable
      split_ifs
      · simp
      · simp
      · exact hno tac htac k hk
    unfold Block.iterspace at hl
    exact updateIterspace_ne_strided (updateIterspace_ne_strided (by simp) hg.ewise hno) hg.ewise hno' hl
  · intro hs
    obtain ⟨tac, htac, k, hk, hl⟩ := hs
    have hle := h.iterspace_symbols.2 tac htac k hk
    rw [hl, code_strided] at hle
    revert hle
    cases b.iterspace.layout <;> simp

theorem collapsed_own (hthreads : 0 < mthreads) {v : Visit} (hv : v ∈ (b.visits mthreads .collapsed).flatten) :
    v.eidx = flatIndex b.iterspace.shape v.index := by
  simp only [Block.visits, List.mem_flatten, List.mem_map, List.mem_range] at hv
  obtain ⟨_, ⟨tid, htid, rfl⟩, hv⟩ := hv
  have hle := share_le b.iterspace.shape.prod (nworkers_pos _ hthreads) htid
  unfold Block.collapsedWorker at hv
  simp only [List.mem_map, List.mem_range] at hv
  obtain ⟨j, hj, rfl⟩ := hv
  have hlt : (share b.iterspace.shape.prod (nworkers b.iterspace.shape.prod mthreads) tid).1 + j <
      b.iterspace.shape.prod := by omega
  exact (flatIndex_coords hlt).symm

/-- A visit of a walker that goes by rows of `c` elements. -/
def InRow (b : Block) (c : ℕ) (v : Visit) : Prop :=
  ∃ row i, i < c ∧ row * c + i < b.iterspace.shape.prod ∧ v.eidx = row * c ∧ v.index = coords b.iterspace.shape (row * c + i)

theorem chunk_inRow {c row d : ℕ} {p : ℕ → ℤ} (hrow : (row + 1) * c ≤ b.iterspace.shape.prod) {v : Visit}
    (hv : v ∈ b.chunk (row * c) c d p) : InRow b c v := by
  unfold Block.chunk at hv
  simp only [List.mem_map, List.mem_range] at hv
  obtain ⟨i, hi, rfl⟩ := hv
  have hmul : (row + 1) * c = row * c + c := Nat.succ_mul row c
  exact ⟨row, i, hi, by omega, rfl, rfl⟩

theorem inner_inRow (hthreads : 0 < mthreads) {t : Template} (ht : t = .inner2d ∨ t = .innerNd) {v : Visit}
    (hv : v ∈ (b.visits mthreads t).flatten) : InRow b (b.iterspace.shape.getLastD 1) v := by
  -- both walkers share the rows in the same way
  have hrows : ∀ tid < nworkers (b.iterspace.shape.prod / b.iterspace.shape.getLastD 1) mthreads, ∀ r,
      r < (share (b.iterspace.shape.prod / b.iterspace.shape.getLastD 1)
        (nworkers (b.iterspace.shape.prod / b.iterspace.shape.getLastD 1) mthreads) tid).2 →
      ((share (b.iterspace.shape.prod / b.iterspace.shape.getLastD 1)
        (nworkers (b.iterspace.shape.prod / b.iterspace.shape.getLastD 1) mthreads) tid).1 + r + 1) *
          b.iterspace.shape.getLastD 1 ≤ b.iterspace.shape.prod := by
    intro tid htid r hr
    have hle := share_le (b.iterspace.shape.prod / b.iterspace.shape.getLastD 1) (nworkers_pos _ hthreads) htid
    exact (Nat.mul_le_mul_right _ (by omega)).trans (Nat.div_mul_le_self _ _)
  obtain rfl | rfl := ht
  · simp only [Block.visits, List.mem_flatten, List.mem_map, List.mem_range] at hv
    obtain ⟨_, ⟨tid, htid, rfl⟩, hv⟩ := hv
    obtain ⟨r, hr, hv⟩ := List.mem_flatMap.mp hv
    exact chunk_inRow (hrows tid htid r (List.mem_range.mp hr)) hv
  · simp only [Block.visits, List.mem_flatten, List.mem_map, List.mem_range] at hv
    obtain ⟨_, ⟨tid, htid, rfl⟩, hv⟩ := hv
    obtain ⟨r, hr, hv⟩ := List.mem_flatMap.mp hv
    exact chunk_inRow (hrows tid htid r (List.mem_range.mp hr)) hv

/-- By rows, `eidx` is the number of the element only where a row is one element. -/
theorem rows_own_iff {c : ℕ} {vs : List Visit} (hrow : ∀ v ∈ vs, InRow b c v)
    (honce : (vs.map Visit.index).Perm (indices b.iterspace.shape)) (hc : 0 < c) (hle : c ≤ b.iterspace.shape.prod) :
    (∀ v ∈ vs, v.eidx = flatIndex b.iterspace.shape v.index) ↔ c = 1 := by
  constructor
  · intro hown
    by_contra hne
    -- the second element of the first row
    have hmem : coords b.iterspace.shape 1 ∈ vs.map Visit.index :=
      honce.mem_iff.mpr (coords_mem (by omega))
    obtain ⟨v, hv, hindex⟩ := List.mem_map.mp hmem
    obtain ⟨row, i, hi, hlt, heidx, hcoords⟩ := hrow v hv
    have hflat := hown v hv
    rw [heidx, hindex, flatIndex_coords (by omega)] at hflat
    have := Nat.eq_one_of_mul_eq_one_left hflat
    omega
  · intro hc1 v hv
    obtain ⟨row, i, hi, hlt, heidx, hcoords⟩ := hrow v hv
    rw [heidx, hcoords, flatIndex_coords hlt]
    omega

theorem getLastD_le_prod {ns : List ℕ} (hne : ns ≠ []) (hpos : ∀ n ∈ ns, 0 < n) :
    0 < ns.getLastD 1 ∧ ns.getLastD 1 ≤ ns.prod := by
  obtain ⟨ms, c, rfl⟩ := (List.eq_nil_or_concat' ns).resolve_left hne
  have hms : 0 < ms.prod := zero_lt_prod fun n hn => hpos n (by simp [hn])
  have hlast : (ms ++ [c]).getLastD 1 = c := by simp
  rw [hlast, List.prod_append, List.prod_singleton]
  exact ⟨hpos c (by simp), Nat.le_mul_of_pos_left c hms⟩

/-- A generator is given the number of its element exactly when no operand of the kernel is strided, or the
innermost dimension is of one element. -/
theorem ownIndex_iff (h : Fits b S) (hg : Generates b) (hthreads : 0 < mthreads) :
    OwnIndex b mthreads ↔
      (∀ tac ∈ b.tacs, ∀ k ∈ outerOpds tac, (b.symbols k).layout ≠ .strided) ∨ S.getLastD 1 = 1 := by
  have hstr := h.strided_iff hg
  have hp : b.has .reducePartial = false := by
    unfold Block.has
    rw [List.any_eq_false]
    intro tac htac hop
    rw [decide_eq_true_eq] at hop
    have := hg.ewise tac htac
    rw [hop] at this
    simp [isArrayOp, isEwise] at this
  have hspace := h.iterspace.1
  unfold Space at hspace
  by_cases hS : S.prod = 1
  · rw [if_pos hS] at hspace
    constructor
    · intro _
      refine Or.inl ?_
      intro tac htac k hk hl
      have := hstr.mpr ⟨tac, htac, k, hk, hl⟩
      rw [hspace.1] at this
      cases this
    · intro _
      refine ⟨.scalar, h.template_scalar hS, ?_⟩
      intro v hv
      simp only [Block.visits, List.flatten_singleton, List.mem_singleton] at hv
      rw [hv]
      exact (flatIndex_coords (by rw [hspace.2]; exact Nat.one_pos)).symm
  · rw [if_neg hS] at hspace
    have ht := h.template_whole hS hp
    by_cases hl : b.iterspace.layout = .strided
    · have hno : ¬ ∀ tac ∈ b.tacs, ∀ k ∈ outerOpds tac, (b.symbols k).layout ≠ .strided := by
        push Not
        exact hstr.mp hl
      have ht' : ∃ t, b.template = some t ∧ (t = .inner2d ∨ t = .innerNd) := by
        rw [ht, hl]
        by_cases h2 : S.length = 2
        · exact ⟨.inner2d, by simp [collapsible, h2], Or.inl rfl⟩
        · exact ⟨.innerNd, by simp [collapsible, h2], Or.inr rfl⟩
      obtain ⟨t, ht', hinner⟩ := ht'
      have hlast := getLastD_le_prod h.rank h.pos
      have hone := (h.covered hS hthreads ht').once
      have hiff := rows_own_iff (fun v hv => inner_inRow hthreads hinner hv) hone (by rw [hspace.1]; exact hlast.1)
        (by rw [hspace.1]; exact hlast.2)
      rw [or_iff_right hno, ← hspace.1, ← hiff]
      unfold OwnIndex
      rw [ht']
      simp
    · have hcol : collapsible b.iterspace.layout = true := by
        obtain ⟨_, hl' | hl' | hl'⟩ := hspace
        · rw [hl']; rfl
        · rw [hl']; rfl
        · exact absurd hl' hl
      rw [hcol, if_pos rfl] at ht
      constructor
      · intro _
        refine Or.inl ?_
        intro tac htac k hk hk'
        exact hl (hstr.mpr ⟨tac, htac, k, hk, hk'⟩)
      · intro _
        exact ⟨.collapsed, ht, fun v hv => collapsed_own hthreads hv⟩

end Index

/-- `t` is a range, and `t + 1` goes to every other column of a matrix. -/
def rangePlusOne : Block where
  symbols
    | 0 => ⟨.contiguous, 0, [⟨2, 2⟩, ⟨2, 1⟩]⟩
    | 1 => ⟨.strided, 0, [⟨2, 8⟩, ⟨2, 2⟩]⟩
    | _ => ⟨.scalarConst, 0, [⟨1, 1⟩]⟩
  contracted _ := false
  constant _ := 1
  tacs := [⟨.generate, .range, 0, 0, 0⟩, ⟨.zip, .add, 1, 0, 2⟩]

theorem rangePlusOne_fits : Fits rangePlusOne [2, 2] := by
  constructor
  · decide
  · decide
  · simp only [rangePlusOne, List.forall_mem_cons]
    refine ⟨?_, ?_, by simp⟩
    · apply FitsTac.ewise rfl
      simp [operandsOf, noperands, Full, Single, Opd.shape]
      decide
    · apply FitsTac.ewise rfl
      simp [operandsOf, noperands, Full, Single, Opd.shape]
      decide
  · simp [rangePlusOne]
  · refine ⟨⟨.zip, .add, 1, 0, 2⟩, by simp [rangePlusOne], 1, by decide, ?_⟩
    exact ⟨rfl, by decide⟩

theorem rangePlusOne_generates : Generates rangePlusOne := by
  constructor
  · exact ⟨⟨.generate, .range, 0, 0, 0⟩, by simp [rangePlusOne], rfl, Or.inl rfl⟩
  · simp [rangePlusOne, isEwise]

theorem ownIndex_iff_rangePlusOne : OwnIndex rangePlusOne 2 ↔
    (∀ tac ∈ rangePlusOne.tacs, ∀ k ∈ outerOpds tac, (rangePlusOne.symbols k).layout ≠ .strided) ∨ [2, 2].getLastD 1 = 1 :=
  ownIndex_iff rangePlusOne_fits rangePlusOne_generates (by decide)

/-- The elements of a row are all given the number of the first. -/
theorem not_ownIndex_rangePlusOne : Fits rangePlusOne [2, 2] ∧ Generates rangePlusOne ∧ ¬ OwnIndex rangePlusOne 1 := by
  refine ⟨rangePlusOne_fits, rangePlusOne_generates, ?_⟩
  intro hown
  obtain ⟨t, ht, hall⟩ := hown
  have ht' : rangePlusOne.template = some .inner2d := by decide
  obtain rfl := Option.some.inj (ht'.symm.trans ht)
  have hmem : (0, [0, 1]) ∈ (rangePlusOne.visits 1 .inner2d).flatten.map fun v => (v.eidx, v.index) := by decide
  obtain ⟨v, hv, heq⟩ := List.mem_map.mp hmem
  have hv' := hall v hv
  rw [Prod.mk.injEq] at heq
  rw [heq.1, heq.2] at hv'
  revert hv'
  decide

end Bohrium.Cpu
