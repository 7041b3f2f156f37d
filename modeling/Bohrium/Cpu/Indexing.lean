import Bohrium.Cpu.Visits

/-! # Gather and scatter

A kernel of one `BH_GATHER` or `BH_SCATTER` (the `INDEX` operations of `ve/cpu/codegen/walker.cpp`), by the
elements it copies. -/
namespace Bohrium.Cpu
open Engine Strided Walk
set_option autoImplicit false

/-- An element: an operand, and the address from its data pointer. -/
abbrev Place := ℕ × ℤ

/-- The copies of a kernel of one code, from the second place to the first; `entry` are the contents of the
index array. What a gather assigns to a single element stays in a variable: only elementwise codes write it
back (`write_expanded_scalars`). -/
def Block.copies (b : Block) (tac : Tac) (mthreads : ℕ) (t : Template) (entry : ℤ → ℤ) : List (Place × Place) :=
  match tac.oper with
  | .gather =>
    if (b.globals tac.out).moves then
      (b.visits mthreads t).flatten.map fun v =>
        ((tac.out, v.walker tac.out), (tac.in1, b.first tac.in1 + entry (v.walker tac.in2)))
    else []
  | .scatter =>
    (b.visits mthreads t).flatten.map fun v =>
      ((tac.out, b.first tac.out + entry (v.walker tac.in2)), (tac.in1, v.walker tac.in1))
  | _ => []

/-- `out[i] = in1_first[in2[i]]` and `out_first[in2[i]] = in1[i]`, for every index of the index array. -/
def indexCopies (b : Block) (tac : Tac) (entry : ℤ → ℤ) : List (Place × Place) :=
  let place := fun k idx => (b.symbols k).start + dot (b.symbols k).dims idx
  (indices (b.symbols tac.in2).shape).map fun idx =>
    match tac.oper with
    | .gather => ((tac.out, place tac.out idx), (tac.in1, (b.symbols tac.in1).start + entry (place tac.in2 idx)))
    | _ => ((tac.out, (b.symbols tac.out).start + entry (place tac.in2 idx)), (tac.in1, place tac.in1 idx))

/-- The operand that is looked up by index. -/
def lookedUp (tac : Tac) : ℕ := if tac.oper = .gather then tac.in1 else tac.out

/-- The operand that goes along with the index array. -/
def alongside (tac : Tac) : ℕ := if tac.oper = .gather then tac.out else tac.in1

/-- A block of a single gather or scatter, on arrays. -/
structure IndexBlock (b : Block) (tac : Tac) : Prop where
  tacs : b.tacs = [tac]
  op : tac.op = .index
  oper : tac.oper = .gather ∨ tac.oper = .scatter
  whole : ∀ k, b.contracted k = false
  layout : (b.symbols (lookedUp tac)).layout = determineLayout (b.symbols (lookedUp tac)).dims
  index : (b.symbols tac.in2).layout = determineLayout (b.symbols tac.in2).dims
  along : Full (b.symbols tac.in2).shape (b.symbols (alongside tac))

/-- The space is that of the index array, source is generated, and what it copies is what is to be copied. -/
def Indexes (b : Block) (tac : Tac) (mthreads : ℕ) (entry : ℤ → ℤ) : Prop :=
  b.iterspace.shape = (b.symbols tac.in2).shape ∧
    ∃ t, b.template = some t ∧ (b.copies tac mthreads t entry).Perm (indexCopies b tac entry)

/-- No operand is strided, and the operand that is looked up does not take the space over from the index
array: it has its shape, or its layout is not larger than those of the others. A gather is of more than one
element. -/
def Indexable (b : Block) (tac : Tac) : Prop :=
  (∀ k ∈ [tac.out, tac.in1, tac.in2], (b.symbols k).layout ≠ .strided) ∧
    match tac.oper with
    | .gather => (b.symbols tac.in2).shape.prod ≠ 1 ∧ ((b.symbols tac.in1).shape = (b.symbols tac.in2).shape ∨
        code (b.symbols tac.in1).layout ≤ code (b.symbols tac.in2).layout)
    | _ => (b.symbols tac.out).shape = (b.symbols tac.in2).shape ∨
        code (b.symbols tac.out).layout ≤ max (code (b.symbols tac.in1).layout) (code (b.symbols tac.in2).layout)

section Indexing
variable {b : Block} {tac : Tac} {mthreads : ℕ} {entry : ℤ → ℤ}

theorem IndexBlock.globals (h : IndexBlock b tac) (k : ℕ) : b.globals k = b.symbols k := by
  unfold Block.globals
  rw [h.whole k]
  simp

theorem IndexBlock.operands (h : IndexBlock b tac) : operandsOf tac = [tac.in2, tac.in1, tac.out] := by
  unfold operandsOf noperands
  rw [h.op]
  rfl

/-- The space: the layouts are compared in the order index, input, output. -/
theorem IndexBlock.iterspace (h : IndexBlock b tac) :
    b.iterspace = [tac.in2, tac.in1, tac.out].foldl (dominate b.symbols) ⟨.scalarTemp, []⟩ := by
  have hstep : ∀ it, updateTac b.symbols it tac = [tac.in2, tac.in1, tac.out].foldl (dominate b.symbols) it := by
    intro it
    unfold updateTac
    rw [h.operands, h.op]
    rfl
  have hglobals : b.globals = b.symbols := funext h.globals
  have htwo : 2 ≤ code (Iterspace.mk .scalarTemp []).layout := by decide
  obtain ⟨hle, hall⟩ := le_foldl_dominate (g := b.symbols) [tac.in2, tac.in1, tac.out] htwo
  unfold Block.iterspace updateIterspace
  rw [hglobals, h.tacs]
  show updateTac b.symbols (updateTac b.symbols _ tac) tac = _
  rw [hstep, hstep]
  exact foldl_dominate_same (htwo.trans hle) hall

theorem determineLayout_four_le (dims : List Dim) : 4 ≤ code (determineLayout dims) := by
  obtain ⟨_, hl⟩ | ⟨_, hl | hl | hl⟩ := determineLayout_cases dims <;> rw [hl] <;> decide

/-- All three operands are arrays. -/
theorem IndexBlock.four_le (h : IndexBlock b tac) : ∀ k ∈ [tac.in2, tac.in1, tac.out],
    (b.symbols k).layout = determineLayout (b.symbols k).dims := by
  have hl := h.layout
  have ha := h.along.2
  unfold lookedUp at hl
  unfold alongside at ha
  simp only [List.forall_mem_cons]
  by_cases hg : tac.oper = .gather
  · rw [if_pos hg] at hl ha
    exact ⟨h.index, hl, ha, by simp⟩
  · rw [if_neg hg] at hl ha
    exact ⟨h.index, ha, hl, by simp⟩

theorem dominate_mk {g : ℕ → Opd} {l : Layout} (h : 2 ≤ code l) (shape : List ℕ) (k : ℕ) :
    dominate g ⟨l, shape⟩ k = if code l < code (g k).layout then ⟨(g k).layout, (g k).shape⟩ else ⟨l, shape⟩ :=
  dominate_eq h

/-- The space, spelled out. -/
theorem IndexBlock.space (h : IndexBlock b tac) :
    b.iterspace = if code (b.symbols tac.in2).layout < code (b.symbols tac.in1).layout then
      (if code (b.symbols tac.in1).layout < code (b.symbols tac.out).layout then
        ⟨(b.symbols tac.out).layout, (b.symbols tac.out).shape⟩
      else ⟨(b.symbols tac.in1).layout, (b.symbols tac.in1).shape⟩)
    else
      (if code (b.symbols tac.in2).layout < code (b.symbols tac.out).layout then
        ⟨(b.symbols tac.out).layout, (b.symbols tac.out).shape⟩
      else ⟨(b.symbols tac.in2).layout, (b.symbols tac.in2).shape⟩) := by
  have h4 : ∀ k ∈ [tac.in2, tac.in1, tac.out], 4 ≤ code (b.symbols k).layout := by
    intro k hk
    rw [h.four_le k hk]
    exact determineLayout_four_le _
  simp only [List.forall_mem_cons] at h4
  rw [h.iterspace]
  simp only [List.foldl_cons, List.foldl_nil]
  have hfirst : code Layout.scalarTemp < code (b.symbols tac.in2).layout := lt_of_lt_of_le (by decide) h4.1
  have hindex : dominate b.symbols ⟨.scalarTemp, []⟩ tac.in2 = ⟨(b.symbols tac.in2).layout, (b.symbols tac.in2).shape⟩ := by
    rw [dominate_mk (le_refl 2), if_pos hfirst]
  rw [hindex, dominate_mk (g := b.symbols) (by omega) (b.symbols tac.in2).shape tac.in1]
  split
  · exact dominate_mk (by omega) _ _
  · exact dominate_mk (by omega) _ _

/-- A strided operand makes the space strided, and for that there is no walker. -/
theorem IndexBlock.template_strided (h : IndexBlock b tac) {k : ℕ} (hk : k ∈ [tac.in2, tac.in1, tac.out])
    (hl : (b.symbols k).layout = .strided) : b.template = none := by
  have hle := (le_foldl_dominate (g := b.symbols) [tac.in2, tac.in1, tac.out]
    (show 2 ≤ code (Iterspace.mk .scalarTemp []).layout by decide)).2 k hk
  rw [← h.iterspace, hl, code_strided] at hle
  have hstr : b.iterspace.layout = .strided := by
    revert hle
    cases b.iterspace.layout <;> simp
  unfold Block.template Block.has
  simp [h.tacs, hstr, h.op, isArrayOp, isEwise, isReduction, collapsible]

theorem IndexBlock.template_scalar (h : IndexBlock b tac) (hl : b.iterspace.layout = .scalar) : b.template = some .scalar := by
  unfold Block.template Block.has
  simp [h.tacs, hl, h.op, isArrayOp, isAccumulation]

theorem IndexBlock.template_collapsed (h : IndexBlock b tac)
    (hl : b.iterspace.layout = .contiguous ∨ b.iterspace.layout = .consecutive) : b.template = some .collapsed := by
  unfold Block.template Block.has
  obtain hl | hl := hl
  · simp [h.tacs, hl, h.op, isArrayOp, collapsible]
  · simp [h.tacs, hl, h.op, isArrayOp, collapsible]

/-- A layout that was found is one of those of arrays. -/
theorem IndexBlock.layout_cases (h : IndexBlock b tac) {k : ℕ} (hk : k ∈ [tac.in2, tac.in1, tac.out])
    (hns : (b.symbols k).layout ≠ .strided) :
    (b.symbols k).layout = .scalar ∧ (b.symbols k).shape.prod = 1 ∨ (b.symbols k).shape.prod ≠ 1 ∧
      ((b.symbols k).layout = .contiguous ∨ (b.symbols k).layout = .consecutive) := by
  rw [h.four_le k hk] at hns ⊢
  unfold Opd.shape
  obtain ⟨h1, hl⟩ | ⟨h1, hl | hl | hl⟩ := determineLayout_cases (b.symbols k).dims
  · exact Or.inl ⟨hl, h1⟩
  · exact Or.inr ⟨h1, Or.inl hl⟩
  · exact Or.inr ⟨h1, Or.inr hl⟩
  · exact absurd hl hns

theorem IndexBlock.isInner (h : IndexBlock b tac) : b.isInner (alongside tac) = true ∧ b.isInner tac.in2 = true := by
  have hmem : alongside tac ∈ innerOpds tac ∧ tac.in2 ∈ innerOpds tac := by
    unfold alongside innerOpds
    rw [h.op]
    obtain ho | ho := h.oper <;> simp [ho]
  have htac : tac ∈ b.tacs := by simp [h.tacs]
  exact ⟨isInner_of_mem htac hmem.1, isInner_of_mem htac hmem.2⟩

/-- The copies of a collapsed walker over the index array. -/
theorem IndexBlock.copies_collapsed (h : IndexBlock b tac) (hthreads : 0 < mthreads)
    (hshape : b.iterspace.shape = (b.symbols tac.in2).shape) (hone : (b.symbols tac.in2).shape.prod ≠ 1)
    (hns : ∀ k ∈ [tac.in2, tac.in1, tac.out], (b.symbols k).layout ≠ .strided) :
    b.copies tac mthreads .collapsed entry = indexCopies b tac entry := by
  have hflat : ∀ k ∈ [tac.in2, tac.in1, tac.out], Full (b.symbols tac.in2).shape (b.symbols k) →
      (b.symbols k).layout = .contiguous ∨ (b.symbols k).layout = .consecutive := by
    intro k hk hf
    obtain ⟨_, h1⟩ | ⟨_, h2⟩ := h.layout_cases hk (hns k hk)
    · rw [hf.1] at h1
      exact absurd h1 hone
    · exact h2
  have hat : ∀ k ∈ [tac.in2, tac.in1, tac.out], b.isInner k = true → Full (b.symbols tac.in2).shape (b.symbols k) →
      ∀ v ∈ (b.visits mthreads .collapsed).flatten, v.walker k = (b.symbols k).start + dot (b.symbols k).dims v.index := by
    intro k hk hin hf v hv
    simp only [Block.visits, List.mem_flatten, List.mem_map, List.mem_range] at hv
    obtain ⟨_, ⟨tid, htid, rfl⟩, hv⟩ := hv
    have hle := share_le b.iterspace.shape.prod (nworkers_pos _ hthreads) htid
    have hpos := collapsedWorker_at (b := b) (k := k) rfl hin
      (by
        intro _
        rw [h.globals, hshape]
        exact ⟨hf, hflat k hk hf⟩) hle hv
    unfold At at hpos
    rw [h.globals, (hf.moves hone).1, if_pos rfl] at hpos
    exact hpos
  have hin2 := hat tac.in2 (by simp) h.isInner.2 ⟨rfl, h.index⟩
  have halong := h.along
  have hinner := h.isInner.1
  have hvisits : indices (b.symbols tac.in2).shape = (b.visits mthreads .collapsed).flatten.map Visit.index := by
    rw [collapsed_indices hthreads, hshape]
  unfold Block.copies indexCopies
  unfold alongside at halong hinner
  obtain ho | ho := h.oper
  · rw [if_pos ho] at halong hinner
    have hout := hat tac.out (by simp) hinner halong
    simp only [ho, h.globals, (halong.moves hone).1, if_true, hvisits, List.map_map]
    apply List.map_congr_left
    intro v hv
    rw [hin2 v hv, hout v hv]
    simp [Block.first, h.globals]
  · rw [if_neg (by simp [ho])] at halong hinner
    have hin1 := hat tac.in1 (by simp) hinner halong
    simp only [ho, hvisits, List.map_map]
    apply List.map_congr_left
    intro v hv
    rw [hin2 v hv, hin1 v hv]
    simp [Block.first, h.globals]

/-- A scatter of one element. -/
theorem IndexBlock.copies_scalar (h : IndexBlock b tac) (ho : tac.oper = .scatter)
    (hone : (b.symbols tac.in2).shape.prod = 1) : b.copies tac mthreads .scalar entry = indexCopies b tac entry := by
  have halong := h.along.1
  unfold alongside at halong
  rw [if_neg (by simp [ho])] at halong
  obtain ⟨idx, hidx⟩ := List.length_eq_one_iff.mp ((length_indices (b.symbols tac.in2).shape).trans hone)
  have hzero : ∀ x ∈ idx, x = 0 := eq_zero_of_mem_indices hone (by simp [hidx])
  unfold Block.copies indexCopies
  rw [hidx]
  simp [ho, Block.visits, Block.first, h.globals, dot_eq_zero hzero]

/-- The space is one of the operands. -/
theorem IndexBlock.space_mem (h : IndexBlock b tac) : ∃ k ∈ [tac.in2, tac.in1, tac.out],
    b.iterspace = ⟨(b.symbols k).layout, (b.symbols k).shape⟩ := by
  rw [h.space]
  split_ifs
  · exact ⟨tac.out, by simp, rfl⟩
  · exact ⟨tac.in1, by simp, rfl⟩
  · exact ⟨tac.out, by simp, rfl⟩
  · exact ⟨tac.in2, by simp, rfl⟩

theorem IndexBlock.gather_shape_iff (h : IndexBlock b tac) (ho : tac.oper = .gather)
    (hns : ∀ k ∈ [tac.in2, tac.in1, tac.out], (b.symbols k).layout ≠ .strided)
    (hone : (b.symbols tac.in2).shape.prod ≠ 1) :
    b.iterspace.shape = (b.symbols tac.in2).shape ↔ (b.symbols tac.in1).shape = (b.symbols tac.in2).shape ∨
      code (b.symbols tac.in1).layout ≤ code (b.symbols tac.in2).layout := by
  have halong := h.along
  unfold alongside at halong
  rw [if_pos ho] at halong
  have hcode : ∀ k ∈ [tac.in2, tac.in1, tac.out], code (b.symbols k).layout ≤ 32 := by
    intro k hk
    obtain ⟨hl, _⟩ | ⟨_, hl | hl⟩ := h.layout_cases hk (hns k hk) <;> rw [hl] <;> decide
  have hmax := hcode tac.out (by simp)
  have h16 : 16 ≤ code (b.symbols tac.in2).layout := by
    obtain ⟨_, hl⟩ | ⟨_, hl | hl⟩ := h.layout_cases (k := tac.in2) (by simp) (hns _ (by simp))
    · exact absurd hl hone
    · rw [hl]; decide
    · rw [hl]; decide
  -- an output that is larger than both leaves the space to the index array only where the input is not larger
  have hin1 : code (b.symbols tac.in2).layout < code (b.symbols tac.in1).layout →
      ¬ code (b.symbols tac.in1).layout < code (b.symbols tac.out).layout := by
    intro h1 h2
    have hin := h.layout_cases (k := tac.in1) (by simp) (hns _ (by simp))
    obtain ⟨hl, _⟩ | ⟨_, hl | hl⟩ := hin <;> rw [hl] at h1 h2 <;>
      simp only [code_scalar, code_contiguous, code_consecutive] at h1 h2 <;> omega
  rw [h.space]
  by_cases h1 : code (b.symbols tac.in2).layout < code (b.symbols tac.in1).layout
  · rw [if_pos h1, if_neg (hin1 h1)]
    constructor
    · exact Or.inl
    · intro hor
      obtain hor | hor := hor
      · exact hor
      · omega
  · rw [if_neg h1]
    constructor
    · intro _
      exact Or.inr (Nat.not_lt.mp h1)
    · intro _
      split_ifs
      · exact halong.1
      · rfl

theorem IndexBlock.scatter_shape_iff (h : IndexBlock b tac) (ho : tac.oper = .scatter) :
    b.iterspace.shape = (b.symbols tac.in2).shape ↔ (b.symbols tac.out).shape = (b.symbols tac.in2).shape ∨
      code (b.symbols tac.out).layout ≤ max (code (b.symbols tac.in1).layout) (code (b.symbols tac.in2).layout) := by
  have halong := h.along.1
  unfold alongside at halong
  rw [if_neg (by simp [ho])] at halong
  rw [h.space]
  split_ifs
  · simp only
    constructor
    · exact Or.inl
    · intro hor
      obtain hor | hor := hor
      · exact hor
      · omega
  · simp only [halong, true_iff]
    omega
  · simp only
    constructor
    · exact Or.inl
    · intro hor
      obtain hor | hor := hor
      · exact hor
      · omega
  · simp only [true_iff]
    omega

/-- A kernel of one gather or scatter does what it should exactly when its operands allow it. -/
theorem indexes_iff (h : IndexBlock b tac) (hthreads : 0 < mthreads) :
    Indexes b tac mthreads entry ↔ Indexable b tac := by
  have hswap : (∀ k ∈ [tac.out, tac.in1, tac.in2], (b.symbols k).layout ≠ .strided) ↔
      ∀ k ∈ [tac.in2, tac.in1, tac.out], (b.symbols k).layout ≠ .strided := by
    simp only [List.forall_mem_cons]
    tauto
  unfold Indexes Indexable
  rw [hswap]
  constructor
  · intro hi
    obtain ⟨hshape, t, ht, hperm⟩ := hi
    have hns : ∀ k ∈ [tac.in2, tac.in1, tac.out], (b.symbols k).layout ≠ .strided := by
      intro k hk hl
      rw [h.template_strided hk hl] at ht
      cases ht
    refine ⟨hns, ?_⟩
    obtain ho | ho := h.oper
    · simp only [ho]
      have halong := h.along
      unfold alongside at halong
      rw [if_pos ho] at halong
      have hone : (b.symbols tac.in2).shape.prod ≠ 1 := by
        intro h1
        have hstill : (b.globals tac.out).moves = false := by
          rw [h.globals]
          unfold Opd.moves
          rw [halong.scalar h1]
        have hlen := hperm.length_eq
        simp [Block.copies, ho, hstill, indexCopies, length_indices, h1] at hlen
      exact ⟨hone, (h.gather_shape_iff ho hns hone).mp hshape⟩
    · simp only [ho]
      exact (h.scatter_shape_iff ho).mp hshape
  · intro hi
    obtain ⟨hns, hcond⟩ := hi
    obtain ⟨k, hk, hit⟩ := h.space_mem
    have hl := h.layout_cases hk (hns k hk)
    have hlayout : b.iterspace.layout = (b.symbols k).layout := by rw [hit]
    have hkshape : b.iterspace.shape = (b.symbols k).shape := by rw [hit]
    have hshape : b.iterspace.shape = (b.symbols tac.in2).shape := by
      obtain ho | ho := h.oper
      · simp only [ho] at hcond
        exact (h.gather_shape_iff ho hns hcond.1).mpr hcond.2
      · simp only [ho] at hcond
        exact (h.scatter_shape_iff ho).mpr hcond
    refine ⟨hshape, ?_⟩
    rw [← hkshape, hshape, ← hlayout] at hl
    obtain ⟨hl, hone⟩ | ⟨hone, hl⟩ := hl
    · obtain ho | ho := h.oper
      · simp only [ho] at hcond
        exact absurd hone hcond.1
      · exact ⟨.scalar, h.template_scalar hl, List.Perm.of_eq (h.copies_scalar ho hone)⟩
    · exact ⟨.collapsed, h.template_collapsed hl, List.Perm.of_eq (h.copies_collapsed hthreads hshape hone hns)⟩

end Indexing

/-- A gather of two elements from every other element of a matrix. -/
def gatherStrided : Block where
  symbols
    | 0 => ⟨.contiguous, 0, [⟨2, 1⟩]⟩
    | 1 => ⟨.strided, 0, [⟨2, 8⟩, ⟨2, 2⟩]⟩
    | _ => ⟨.contiguous, 0, [⟨2, 1⟩]⟩
  contracted _ := false
  constant _ := 0
  tacs := [⟨.index, .gather, 0, 1, 2⟩]

theorem gatherStrided_indexBlock : IndexBlock gatherStrided ⟨.index, .gather, 0, 1, 2⟩ := by
  constructor
  · rfl
  · rfl
  · exact Or.inl rfl
  · intro k
    rfl
  · decide
  · decide
  · exact ⟨rfl, by decide⟩

theorem indexes_iff_gatherStrided : Indexes gatherStrided ⟨.index, .gather, 0, 1, 2⟩ 4 id ↔
    Indexable gatherStrided ⟨.index, .gather, 0, 1, 2⟩ :=
  indexes_iff gatherStrided_indexBlock (by decide)

/-- There is no walker for it. -/
theorem not_indexes_gatherStrided : IndexBlock gatherStrided ⟨.index, .gather, 0, 1, 2⟩ ∧
    gatherStrided.template = none ∧ ¬ Indexes gatherStrided ⟨.index, .gather, 0, 1, 2⟩ 1 id := by
  have hnone : gatherStrided.template = none := by decide
  refine ⟨gatherStrided_indexBlock, hnone, ?_⟩
  intro hi
  obtain ⟨_, t, ht, _⟩ := hi
  rw [hnone] at ht
  cases ht

end Bohrium.Cpu
