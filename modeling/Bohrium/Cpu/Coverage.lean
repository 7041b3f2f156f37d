import Bohrium.Cpu.Walker

/-! # What the walkers visit

Every walker visits each index of the iteration space once, with every operand pointer at the element of
that index. -/
namespace Bohrium.Cpu
open Engine Strided Walk
set_option autoImplicit false

/-! ## Kernels whose operands fit -/

/-- An array over the whole space. -/
def Full (S : List ℕ) (o : Opd) : Prop := o.shape = S ∧ o.layout = determineLayout o.dims

/-- One element, or a constant. -/
def Single (o : Opd) : Prop := o.layout = .scalarConst ∨ (o.shape.prod = 1 ∧ o.layout = determineLayout o.dims)

/-- The operands of a code fit the space: arrays over it and single elements, and the output of a reduction.
The sweep of one element is an identity, and a reduction to one element is complete. -/
inductive FitsTac (b : Block) (S : List ℕ) (tac : Tac) : Prop
  | ewise (hop : isEwise tac.op = true) (hall : ∀ k ∈ operandsOf tac, Full S (b.symbols k) ∨ Single (b.symbols k))
  | complete (hop : tac.op = .reduceComplete) (hS : S.prod ≠ 1) (hin : Full S (b.symbols tac.in1))
      (hout : Single (b.symbols tac.out))
  | axis (hop : tac.op = .reducePartial) (hrank : 2 ≤ S.length) (haxis : b.constant tac.in2 < S.length)
      (hin : Full S (b.symbols tac.in1)) (hout : Full (S.eraseIdx (b.constant tac.in2)) (b.symbols tac.out))
      (hne : (S.eraseIdx (b.constant tac.in2)).prod ≠ 1)
  | other (hop : isArrayOp tac.op = false) (hne : tac.op ≠ .extension)

/-- A kernel over the space `S`. The reductions beside a partial one sweep its axis. -/
structure Fits (b : Block) (S : List ℕ) : Prop where
  pos : ∀ n ∈ S, 0 < n
  rank : S ≠ []
  tacs : ∀ tac ∈ b.tacs, FitsTac b S tac
  sweep : ∀ tac ∈ b.tacs, tac.op = .reducePartial → ∀ tac' ∈ b.tacs, isReduction tac'.op = true →
    b.constant tac'.in2 = b.constant tac.in2
  space : ∃ tac ∈ b.tacs, ∃ k ∈ innerOpds tac, Full S (b.symbols k)

/-! ## Layouts -/

theorem determineLayout_cases (dims : List Dim) :
    ((dims.map Dim.shape).prod = 1 ∧ determineLayout dims = .scalar) ∨
      ((dims.map Dim.shape).prod ≠ 1 ∧ (determineLayout dims = .contiguous ∨ determineLayout dims = .consecutive ∨
        determineLayout dims = .strided)) := by
  unfold determineLayout
  by_cases h : (dims.map Dim.shape).prod = 1
  · exact Or.inl ⟨h, if_pos h⟩
  · refine Or.inr ⟨h, ?_⟩
    simp only [if_neg h]
    split_ifs
    · exact Or.inl rfl
    · exact Or.inr (Or.inl rfl)
    · exact Or.inr (Or.inr rfl)

theorem Full.moves {S : List ℕ} {o : Opd} (h : Full S o) (hS : S.prod ≠ 1) : o.moves = true ∧ 16 ≤ code o.layout := by
  obtain ⟨hs, hl⟩ := h
  obtain ⟨h1, _⟩ | ⟨_, h3⟩ := determineLayout_cases o.dims
  · exact absurd (hs ▸ h1) hS
  · unfold Opd.moves
    rw [hl]
    obtain h3 | h3 | h3 := h3 <;> rw [h3] <;> decide

theorem Full.scalar {S : List ℕ} {o : Opd} (h : Full S o) (hS : S.prod = 1) : o.layout = .scalar := by
  obtain ⟨hs, hl⟩ := h
  obtain ⟨_, h2⟩ | ⟨h1, _⟩ := determineLayout_cases o.dims
  · rw [hl, h2]
  · rw [← hs] at hS
    exact absurd hS h1

theorem Single.layout {o : Opd} (h : Single o) : o.layout = .scalarConst ∨ (o.layout = .scalar ∧ o.shape.prod = 1) := by
  obtain h | ⟨hs, hl⟩ := h
  · exact Or.inl h
  · obtain ⟨_, h2⟩ | ⟨h1, _⟩ := determineLayout_cases o.dims
    · exact Or.inr ⟨by rw [hl, h2], hs⟩
    · exact absurd hs h1

theorem globals_layout (b : Block) (k : ℕ) :
    (b.globals k).layout = (b.symbols k).layout ∨ code (b.globals k).layout ≤ 8 ∧ (b.globals k).moves = false := by
  unfold Block.globals Opd.turnContractable
  split_ifs
  · exact Or.inr ⟨by simp, rfl⟩
  · exact Or.inr ⟨by simp, rfl⟩
  · exact Or.inl rfl

theorem globals_rest (b : Block) (k : ℕ) :
    (b.globals k).start = (b.symbols k).start ∧ (b.globals k).dims = (b.symbols k).dims := by
  unfold Block.globals Opd.turnContractable
  split_ifs <;> exact ⟨rfl, rfl⟩

/-! ## The iteration space -/

/-- The space has a shape and a layout that fit: one element, or the shape of the arrays. -/
def Space (S : List ℕ) (it : Iterspace) : Prop :=
  if S.prod = 1 then it.layout = .scalar ∧ it.shape.prod = 1
  else it.shape = S ∧ (it.layout = .contiguous ∨ it.layout = .consecutive ∨ it.layout = .strided)

/-- What is known of the space before an array was met. -/
def Begun (S : List ℕ) (it : Iterspace) : Prop :=
  it.layout = .scalarTemp ∨ (it.layout = .scalar ∧ it.shape.prod = 1) ∨ Space S it

section Iterspace
variable {b : Block} {S : List ℕ} {it : Iterspace} {g : ℕ → Opd} {k : ℕ} {tac : Tac}

theorem Begun.two_le (h : Begun S it) : 2 ≤ code it.layout := by
  obtain h | ⟨h, _⟩ | h := h
  · rw [h]; decide
  · rw [h]; decide
  · unfold Space at h
    split at h
    · rw [h.1]; decide
    · obtain ⟨_, h | h | h⟩ := h <;> rw [h] <;> decide

theorem dominate_eq (h : 2 ≤ code it.layout) :
    dominate g it k = if code it.layout < code (g k).layout then ⟨(g k).layout, (g k).shape⟩ else it := by
  unfold dominate
  split
  · rw [if_pos]
    change 2 < _
    omega
  · rfl

theorem code_dominate (h : 2 ≤ code it.layout) :
    code it.layout ≤ code (dominate g it k).layout ∧ code (g k).layout ≤ code (dominate g it k).layout := by
  rw [dominate_eq h]
  split
  · rename_i hlt
    exact ⟨hlt.le, le_refl _⟩
  · rename_i hlt
    exact ⟨le_refl _, Nat.not_lt.mp hlt⟩

theorem le_foldl_dominate (ks : List ℕ) (h : 2 ≤ code it.layout) :
    code it.layout ≤ code (ks.foldl (dominate g) it).layout ∧
      ∀ k ∈ ks, code (g k).layout ≤ code (ks.foldl (dominate g) it).layout := by
  induction ks generalizing it with
  | nil => simp
  | cons k ks ih =>
    have hcode := code_dominate (g := g) (k := k) h
    obtain ⟨h1, h2⟩ := ih (h.trans hcode.1)
    rw [List.foldl_cons, List.forall_mem_cons]
    exact ⟨hcode.1.trans h1, hcode.2.trans h1, h2⟩

theorem foldl_dominate_same {ks : List ℕ} (h : 2 ≤ code it.layout) (hle : ∀ k ∈ ks, code (g k).layout ≤ code it.layout) :
    ks.foldl (dominate g) it = it := by
  induction ks with
  | nil => rfl
  | cons k ks ih =>
    rw [List.forall_mem_cons] at hle
    rw [List.foldl_cons, dominate_eq h, if_neg (Nat.not_lt.mpr hle.1)]
    exact ih hle.2

theorem Full.space (h : Full S (g k)) : Space S ⟨(g k).layout, (g k).shape⟩ := by
  unfold Space
  split
  · rename_i hS
    exact ⟨h.scalar hS, by rw [h.1]; exact hS⟩
  · rename_i hS
    refine ⟨h.1, ?_⟩
    obtain ⟨h1, _⟩ | ⟨_, h3⟩ := determineLayout_cases (g k).dims
    · exact absurd (h.1 ▸ h1) hS
    · simp only [h.2]
      exact h3

/-- An array settles the space. -/
theorem Begun.full (h : Begun S it) (hk : Full S (g k)) : Space S (dominate g it k) := by
  rw [dominate_eq h.two_le]
  split
  · exact hk.space
  · rename_i hle
    obtain h | ⟨h, h'⟩ | h := h
    · rw [h] at hle
      by_cases hS : S.prod = 1
      · rw [hk.scalar hS] at hle
        exact absurd (by decide) hle
      · have h16 := (hk.moves hS).2
        rw [code_scalarTemp] at hle
        omega
    · by_cases hS : S.prod = 1
      · unfold Space
        rw [if_pos hS]
        exact ⟨h, h'⟩
      · have h16 := (hk.moves hS).2
        rw [h, code_scalar] at hle
        omega
    · exact h

theorem Begun.single (h : Begun S it) (hk : Single (g k)) : Begun S (dominate g it k) := by
  rw [dominate_eq h.two_le]
  split
  · obtain hk | ⟨hk, hs⟩ := hk.layout
    · rename_i hlt
      have := h.two_le
      rw [hk, code_scalarConst] at hlt
      omega
    · exact Or.inr (Or.inl ⟨hk, hs⟩)
  · exact h

theorem Space.begun (h : Space S it) : Begun S it := Or.inr (Or.inr h)

theorem Space.single (h : Space S it) (hk : Single (g k)) : Space S (dominate g it k) := by
  rw [dominate_eq h.begun.two_le]
  split
  · rename_i hlt
    have h4 : code (g k).layout ≤ 4 := by
      obtain hk | ⟨hk, _⟩ := hk.layout <;> rw [hk] <;> decide
    unfold Space at h
    split at h
    · rw [h.1, code_scalar] at hlt
      omega
    · obtain ⟨_, h | h | h⟩ := h <;> rw [h] at hlt <;> simp at hlt <;> omega
  · exact h

theorem globals_code_le (hk : Full S (b.symbols k) ∨ Single (b.symbols k)) :
    code (b.globals k).layout ≤ code (b.symbols k).layout := by
  have hcases : (b.symbols k).layout = .scalarConst ∨ (b.symbols k).layout = .scalar ∨ 16 ≤ code (b.symbols k).layout := by
    obtain hk | hk := hk
    · by_cases hS : S.prod = 1
      · exact Or.inr (Or.inl (hk.scalar hS))
      · exact Or.inr (Or.inr (hk.moves hS).2)
    · obtain hk | ⟨hk, _⟩ := hk.layout
      · exact Or.inl hk
      · exact Or.inr (Or.inl hk)
  unfold Block.globals Opd.turnContractable
  obtain h | h | h := hcases
  · simp [h]
  · rw [h]
    split_ifs <;> simp_all
  · split_ifs
    · simp only [code_scalarTemp]
      omega
    · simp only [code_contractable]
      omega
    · exact le_refl _

/-- The operands of a code fit, one by one. -/
theorem FitsTac.operand (h : FitsTac b S tac) (hk : k ∈ outerOpds tac) :
    ∃ S', Full S' (b.symbols k) ∨ Single (b.symbols k) := by
  cases h with
  | ewise hop hall =>
    refine ⟨S, hall k ?_⟩
    unfold outerOpds at hk
    revert hop hk
    cases tac.op <;> simp [isEwise]
  | complete hop hS hin hout =>
    simp only [outerOpds, hop, List.mem_cons, List.not_mem_nil, or_false] at hk
    obtain rfl | rfl := hk
    · exact ⟨S, Or.inl hin⟩
    · exact ⟨S, Or.inr hout⟩
  | axis hop hrank haxis hin hout hne =>
    simp only [outerOpds, hop, List.mem_cons, List.not_mem_nil, or_false] at hk
    obtain rfl | rfl := hk
    · exact ⟨S, Or.inl hin⟩
    · exact ⟨_, Or.inl hout⟩
  | other hop hne =>
    unfold outerOpds at hk
    revert hop hk
    cases tac.op <;> simp [isArrayOp]

theorem foldl_dominate {ks : List ℕ} (h : Begun S it) (hall : ∀ k ∈ ks, Full S (g k) ∨ Single (g k)) :
    Begun S (ks.foldl (dominate g) it) ∧
      ((Space S it ∨ ∃ k ∈ ks, Full S (g k)) → Space S (ks.foldl (dominate g) it)) := by
  induction ks generalizing it with
  | nil => exact ⟨h, by simp⟩
  | cons k ks ih =>
    rw [List.forall_mem_cons] at hall
    have hstep : Begun S (dominate g it k) ∧ ((Space S it ∨ Full S (g k)) → Space S (dominate g it k)) := by
      obtain hk | hk := hall.1
      · exact ⟨(h.full hk).begun, fun _ => h.full hk⟩
      · refine ⟨h.single hk, ?_⟩
        intro hs
        obtain hs | hs := hs
        · exact hs.single hk
        · exact h.full hs
    obtain ⟨h1, h4⟩ := ih hstep.1 hall.2
    rw [List.foldl_cons]
    refine ⟨h1, ?_⟩
    intro hs
    apply h4
    obtain hs | ⟨k', hk', hf⟩ := hs
    · exact Or.inl (hstep.2 (Or.inl hs))
    · obtain rfl | hk' := List.mem_cons.mp hk'
      · exact Or.inl (hstep.2 (Or.inr hf))
      · exact Or.inr ⟨k', hk', hf⟩

theorem operandsOf_ewise (h : isEwise tac.op = true) : innerOpds tac = operandsOf tac ∧ outerOpds tac = operandsOf tac ∧
    isArrayOp tac.op = true ∧ isReduction tac.op = false := by
  unfold innerOpds outerOpds
  revert h
  cases tac.op <;> simp [isEwise, isArrayOp, isReduction]

theorem prod_ne_one_of_erase {k : ℕ} (h : (S.eraseIdx k).prod ≠ 1) : S.prod ≠ 1 := by
  intro hS
  apply h
  apply List.prod_eq_one
  intro x hx
  exact eq_one_of_prod hS x (List.mem_of_mem_eraseIdx hx)

/-- A reduction: its input settles the space, and its output may raise the layout. -/
theorem updateTac_reduction (hb : Begun S it) (hop : isReduction tac.op = true) (hS : S.prod ≠ 1)
    (hin : Full S (g tac.in1))
    (hout : Single (g tac.out) ∨ (∃ S', Full S' (g tac.out) ∧ S'.prod ≠ 1)) :
    Space S (updateTac g it tac) ∧ code it.layout ≤ code (updateTac g it tac).layout ∧
      code (g tac.in1).layout ≤ code (updateTac g it tac).layout ∧
      code (g tac.out).layout ≤ code (updateTac g it tac).layout := by
  have harr : isArrayOp tac.op = true := by
    revert hop
    cases tac.op <;> simp [isReduction, isArrayOp]
  have h16 := (hin.moves hS).2
  unfold updateTac
  rw [if_neg (by simp [harr]), if_pos hop]
  -- the space after the input was looked at
  have hin' : ∃ it', (if code it.layout ≤ code (g tac.in1).layout then ⟨(g tac.in1).layout, (g tac.in1).shape⟩ else it) = it' ∧
      Space S it' ∧ code it.layout ≤ code it'.layout ∧ code (g tac.in1).layout ≤ code it'.layout := by
    split
    · rename_i hle
      exact ⟨_, rfl, hin.space, hle, le_refl _⟩
    · rename_i hlt
      refine ⟨it, rfl, ?_, le_refl _, by omega⟩
      obtain h | ⟨h, _⟩ | h := hb
      · rw [h, code_scalarTemp] at hlt
        omega
      · rw [h, code_scalar] at hlt
        omega
      · exact h
  obtain ⟨it', heq, hspace, hle, hle'⟩ := hin'
  simp only [heq]
  split
  · rename_i hlt
    refine ⟨?_, hle.trans hlt.le, hle'.trans hlt.le, le_refl _⟩
    unfold Space at hspace ⊢
    rw [if_neg hS] at hspace ⊢
    refine ⟨hspace.1, ?_⟩
    obtain ho | ⟨S', ho, hS'⟩ := hout
    · obtain ho | ⟨ho, _⟩ := ho.layout <;> rw [ho] at hlt
      · rw [code_scalarConst] at hlt
        omega
      · rw [code_scalar] at hlt
        omega
    · have := ho.space
      unfold Space at this
      rw [if_neg hS'] at this
      exact this.2
  · rename_i hlt
    exact ⟨hspace, hle, hle', Nat.not_lt.mp hlt⟩

theorem updateTac_spec (hb : Begun S it) (h : FitsTac b S tac) :
    Begun S (updateTac b.symbols it tac) ∧ code it.layout ≤ code (updateTac b.symbols it tac).layout ∧
      (∀ k ∈ outerOpds tac, code (b.symbols k).layout ≤ code (updateTac b.symbols it tac).layout) ∧
      ((Space S it ∨ ∃ k ∈ innerOpds tac, Full S (b.symbols k)) → Space S (updateTac b.symbols it tac)) := by
  cases h with
  | ewise hop hall =>
    obtain ⟨hinner, houter, harr, hred⟩ := operandsOf_ewise hop
    have heq : updateTac b.symbols it tac = (operandsOf tac).foldl (dominate b.symbols) it := by
      unfold updateTac
      rw [if_neg (by simp [harr]), if_neg (by simp [hred])]
    rw [heq, hinner, houter]
    obtain ⟨h1, h2⟩ := foldl_dominate hb hall
    obtain ⟨h3, h4⟩ := le_foldl_dominate (g := b.symbols) (operandsOf tac) hb.two_le
    exact ⟨h1, h3, h4, h2⟩
  | complete hop hS hin hout =>
    obtain ⟨h1, h2, h3, h4⟩ := updateTac_reduction hb (by rw [hop]; rfl) hS hin (Or.inl hout)
    refine ⟨h1.begun, h2, ?_, fun _ => h1⟩
    simp only [outerOpds, hop, List.forall_mem_cons]
    exact ⟨h3, h4, by simp⟩
  | axis hop hrank haxis hin hout hne =>
    obtain ⟨h1, h2, h3, h4⟩ := updateTac_reduction hb (by rw [hop]; rfl) (prod_ne_one_of_erase hne) hin
      (Or.inr ⟨_, hout, hne⟩)
    refine ⟨h1.begun, h2, ?_, fun _ => h1⟩
    simp only [outerOpds, hop, List.forall_mem_cons]
    exact ⟨h3, h4, by simp⟩
  | other hop hne =>
    have heq : updateTac b.symbols it tac = it := by
      unfold updateTac
      rw [if_pos hop]
    have hopds : innerOpds tac = [] ∧ outerOpds tac = [] := by
      unfold innerOpds outerOpds
      revert hop
      cases tac.op <;> simp [isArrayOp]
    rw [heq, hopds.1, hopds.2]
    exact ⟨hb, le_refl _, by simp, by simp⟩

theorem updateIterspace_spec {tacs : List Tac} (hb : Begun S it) (h : ∀ tac ∈ tacs, FitsTac b S tac) :
    Begun S (updateIterspace b.symbols tacs it) ∧ code it.layout ≤ code (updateIterspace b.symbols tacs it).layout ∧
      (∀ tac ∈ tacs, ∀ k ∈ outerOpds tac, code (b.symbols k).layout ≤ code (updateIterspace b.symbols tacs it).layout) ∧
      ((Space S it ∨ ∃ tac ∈ tacs, ∃ k ∈ innerOpds tac, Full S (b.symbols k)) →
        Space S (updateIterspace b.symbols tacs it)) := by
  unfold updateIterspace
  induction tacs generalizing it with
  | nil => exact ⟨hb, le_refl _, by simp, by simp⟩
  | cons tac tacs ih =>
    rw [List.forall_mem_cons] at h
    obtain ⟨h1, h2, h3, h4⟩ := updateTac_spec hb h.1
    obtain ⟨i1, i2, i3, i4⟩ := ih h1 h.2
    rw [List.foldl_cons]
    refine ⟨i1, h2.trans i2, ?_, ?_⟩
    · rw [List.forall_mem_cons]
      exact ⟨fun k hk => (h3 k hk).trans i2, i3⟩
    · intro hs
      apply i4
      obtain hs | ⟨tac', htac', hk⟩ := hs
      · exact Or.inl (h4 (Or.inl hs))
      · obtain rfl | htac' := List.mem_cons.mp htac'
        · exact Or.inl (h4 (Or.inr hk))
        · exact Or.inr ⟨tac', htac', hk⟩

theorem code_inj {l l' : Layout} (h : code l = code l') : l = l' := by
  revert h
  cases l <;> cases l' <;> decide

/-- Contraction does not change the space. -/
theorem updateTac_globals (hs : Space S it) (h : FitsTac b S tac)
    (hle : ∀ k ∈ outerOpds tac, code (b.globals k).layout ≤ code it.layout) : updateTac b.globals it tac = it := by
  have hred : isReduction tac.op = true → S.prod ≠ 1 → outerOpds tac = [tac.in1, tac.out] → Full S (b.symbols tac.in1) →
      updateTac b.globals it tac = it := by
    intro hop hS houter hin
    have hin' := hle tac.in1 (by simp [houter])
    have hout' := hle tac.out (by simp [houter])
    have harr : isArrayOp tac.op = true := by
      revert hop
      cases tac.op <;> simp [isReduction, isArrayOp]
    have hsame : (if code it.layout ≤ code (b.globals tac.in1).layout then
        (⟨(b.globals tac.in1).layout, (b.globals tac.in1).shape⟩ : Iterspace) else it) = it := by
      split
      · have hl := code_inj (Nat.le_antisymm hin' ‹_›)
        have hshape : (b.globals tac.in1).shape = it.shape := by
          unfold Space at hs
          rw [if_neg hS] at hs
          rw [hs.1, ← hin.1]
          unfold Opd.shape
          rw [(globals_rest b tac.in1).2]
        rw [hl, hshape]
      · rfl
    unfold updateTac
    rw [if_neg (by simp [harr]), if_pos hop]
    simp only [hsame]
    rw [if_neg (Nat.not_lt.mpr hout')]
  cases h with
  | ewise hop hall =>
    obtain ⟨_, houter, harr, hr⟩ := operandsOf_ewise hop
    unfold updateTac
    rw [if_neg (by simp [harr]), if_neg (by simp [hr])]
    rw [houter] at hle
    exact foldl_dominate_same hs.begun.two_le hle
  | complete hop hS hin hout => exact hred (by rw [hop]; rfl) hS (by simp [outerOpds, hop]) hin
  | axis hop hrank haxis hin hout hne =>
    exact hred (by rw [hop]; rfl) (prod_ne_one_of_erase hne) (by simp [outerOpds, hop]) hin
  | other hop hne =>
    unfold updateTac
    rw [if_pos hop]

/-- The space of a kernel that fits: it has the shape of the arrays, and its layout dominates those they had
before contraction. -/
theorem Fits.iterspace_symbols (h : Fits b S) :
    Space S b.iterspace ∧ ∀ tac ∈ b.tacs, ∀ k ∈ outerOpds tac, code (b.symbols k).layout ≤ code b.iterspace.layout := by
  have hbegun : Begun S ⟨.scalarTemp, []⟩ := Or.inl rfl
  obtain ⟨-, -, hle, hspace⟩ := updateIterspace_spec hbegun h.tacs
  have hs := hspace (Or.inr h.space)
  have hle' : ∀ tac ∈ b.tacs, ∀ k ∈ outerOpds tac, code (b.globals k).layout ≤
      code (updateIterspace b.symbols b.tacs ⟨.scalarTemp, []⟩).layout := by
    intro tac htac k hk
    obtain ⟨S', hk'⟩ := (h.tacs tac htac).operand hk
    exact (globals_code_le hk').trans (hle tac htac k hk)
  have hsame : b.iterspace = updateIterspace b.symbols b.tacs ⟨.scalarTemp, []⟩ := by
    unfold Block.iterspace
    generalize updateIterspace b.symbols b.tacs ⟨.scalarTemp, []⟩ = it at hs hle'
    have htacs := h.tacs
    unfold updateIterspace
    generalize b.tacs = tacs at hle' htacs
    induction tacs with
    | nil => rfl
    | cons tac tacs ih =>
      rw [List.forall_mem_cons] at hle' htacs
      rw [List.foldl_cons, updateTac_globals hs htacs.1 hle'.1]
      exact ih hle'.2 htacs.2
  rw [hsame]
  exact ⟨hs, hle⟩

theorem Fits.iterspace (h : Fits b S) :
    Space S b.iterspace ∧ ∀ tac ∈ b.tacs, ∀ k ∈ outerOpds tac, code (b.globals k).layout ≤ code b.iterspace.layout := by
  obtain ⟨hs, hle⟩ := h.iterspace_symbols
  refine ⟨hs, ?_⟩
  intro tac htac k hk
  obtain ⟨S', hk'⟩ := (h.tacs tac htac).operand hk
  exact (globals_code_le hk').trans (hle tac htac k hk)

end Iterspace

end Bohrium.Cpu
