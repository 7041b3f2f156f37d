import Bohrium.Filter.BcexpSound

/-! # The expansion filter and the lifetime of arrays

A backend forgets a base at its `BH_DISCARD`. The sequences that the filter injects release their
temporaries after the last use, with one exception: the real `sign` uses its boolean temporary
again after it has discarded it. -/
namespace Bohrium
set_option autoImplicit false

/-- The bases of an instruction's operands. -/
def BhInstruction.bases (i : BhInstruction) : List BhBase := i.operands.filterMap BhView.base

/-- No base is used after a `BH_DISCARD` of it. -/
def NoUseAfterDiscard (l : List BhInstruction) : Prop :=
  l.Pairwise fun i j => i.opcode = .discard → ∀ b ∈ i.operand0.base, b ∉ j.bases

instance (l : List BhInstruction) : Decidable (NoUseAfterDiscard l) :=
  inferInstanceAs (Decidable (l.Pairwise _))

/-- The last two uses of a base are a `BH_FREE` and a `BH_DISCARD`, and it has no other of them. -/
def ReleasedOnce (b : BhBase) (l : List BhInstruction) : Prop :=
  ∃ uses free discard, l.filter (b ∈ ·.bases) = uses ++ [free, discard] ∧ free.opcode = .free ∧
    discard.opcode = .discard ∧ ∀ i ∈ uses, i.opcode ≠ .free ∧ i.opcode ≠ .discard

namespace Expander

/-- A `BH_SIGN` of real numbers that is expanded. -/
def RealSign (e : Expander) (i : BhInstruction) : Prop :=
  e.sign = true ∧ i.opcode = .sign ∧ ∀ b ∈ i.operand1.base, b.type.isComplex = false

instance (e : Expander) (i : BhInstruction) : Decidable (e.RealSign i) :=
  inferInstanceAs (Decidable (_ ∧ _ ∧ _))

/-! ## What injected instructions use -/

section Bases
variable (e : Expander) {opcode : BhOpcode}

theorem bases_toNone (i : BhInstruction) : i.toNone.bases = [] := rfl

theorem bases_system (h : bhOperands opcode = 1) (out : BhView) :
    (e.system opcode out).bases = out.base.toList := by
  cases hb : out.base <;> simp [BhInstruction.bases, BhInstruction.operands, system, h, hb]

theorem bases_unary (h : bhOperands opcode = 2) (out in1 : BhView) :
    (e.unary opcode out in1).bases = out.base.toList ++ in1.base.toList := by
  cases hb : out.base <;> cases h1 : in1.base <;>
    simp [BhInstruction.bases, BhInstruction.operands, unary, h, hb, h1]

theorem bases_unaryConst (h : bhOperands opcode = 2) (out : BhView) (in1 : ℤ) (type : BhType) :
    (e.unaryConst opcode out in1 type).bases = out.base.toList := by
  cases hb : out.base <;>
    simp [BhInstruction.bases, BhInstruction.operands, unaryConst, bhFlagConstant, h, hb]

theorem bases_binary (h : bhOperands opcode = 3) (out in1 in2 : BhView) :
    (e.binary opcode out in1 in2).bases = out.base.toList ++ in1.base.toList ++ in2.base.toList := by
  cases hb : out.base <;> cases h1 : in1.base <;> cases h2 : in2.base <;>
    simp [BhInstruction.bases, BhInstruction.operands, binary, h, hb, h1, h2]

theorem bases_binaryConst (h : bhOperands opcode = 3) (out in1 : BhView) (in2 : ℤ) (type : BhType) :
    (e.binaryConst opcode out in1 in2 type).bases = out.base.toList ++ in1.base.toList := by
  cases hb : out.base <;> cases h1 : in1.base <;>
    simp [BhInstruction.bases, BhInstruction.operands, binaryConst, bhFlagConstant, h, hb, h1]

end Bases

/-! ## Segments -/

/-- What an instruction is replaced by: it uses the instruction's bases and temporaries, and
discards temporaries only, unless it is the instruction itself. -/
structure Segment (addr addr' : ℕ) (temps : List BhBase) (i : BhInstruction) (seg : List BhInstruction) :
    Prop where
  le : addr ≤ addr'
  range : ∀ t ∈ temps, addr ≤ t.addr ∧ t.addr < addr'
  uses : ∀ j ∈ seg, ∀ b ∈ j.bases, b ∈ i.bases ∨ b ∈ temps
  discards : ∀ j ∈ seg, j.opcode = .discard → j = i ∨ ∀ b ∈ j.operand0.base, b ∈ temps

/-- The segment respects the lifetime of its temporaries. -/
structure Tidy (temps : List BhBase) (seg : List BhInstruction) : Prop where
  noUse : NoUseAfterDiscard seg
  once : ∀ t ∈ temps, ReleasedOnce t seg

theorem segment_self (addr : ℕ) (i : BhInstruction) : Segment addr addr [] i [i] where
  le := le_rfl
  range := nofun
  uses := by
    intro j hj b hb
    rw [List.mem_singleton.mp hj] at hb
    exact Or.inl hb
  discards := fun j hj _ => Or.inl (List.mem_singleton.mp hj)

theorem tidy_self (i : BhInstruction) : Tidy [] [i] where
  noUse := List.pairwise_singleton _ _
  once := nofun

theorem noUse_cons {i : BhInstruction} {l : List BhInstruction} (hi : i.opcode ≠ .discard)
    (hl : NoUseAfterDiscard l) : NoUseAfterDiscard (i :: l) :=
  List.Pairwise.cons (fun _ _ hop => absurd hop hi) hl

theorem noUse_discard {e : Expander} {v : BhView} {t : BhBase} {l : List BhInstruction} (hv : v.base = some t)
    (ht : ∀ j ∈ l, t ∉ j.bases) (hl : NoUseAfterDiscard l) :
    NoUseAfterDiscard (e.system .discard v :: l) := by
  refine List.Pairwise.cons (fun j hj _ b hb => ?_) hl
  obtain rfl := Option.some.inj (hv.symm.trans hb)
  exact ht j hj

theorem releasedOnce_of (e : Expander) (v : BhView) {t : BhBase} {l : List BhInstruction}
    (uses : List BhInstruction) (hl : l.filter (t ∈ ·.bases) = uses ++ e.drop v)
    (huses : ∀ i ∈ uses, i.opcode ≠ .free ∧ i.opcode ≠ .discard) : ReleasedOnce t l :=
  ⟨uses, e.system .free v, e.system .discard v, hl, rfl, rfl, huses⟩

section Sequences
variable {e : Expander} {addr : ℕ} {i : BhInstruction} {seq : List BhInstruction}

theorem mem_bases_of_operand {v : BhView} {b : BhBase} (hv : v ∈ i.operands) (hb : v.base = some b) :
    b ∈ i.bases := List.mem_filterMap.mpr ⟨v, hv, hb⟩

theorem not_mem_bases_of_older (hold : i.Older addr) {b : BhBase} (hb : addr ≤ b.addr) : b ∉ i.bases := by
  intro hmem
  obtain ⟨v, hv, hvb⟩ := List.mem_filterMap.mp hmem
  have hlt := hold v hv b hvb
  omega

/-- A sequence without a temporary and without a `BH_DISCARD`. -/
theorem lifetime_of_no_discard (addr : ℕ)
    (hseq : ∀ j ∈ seq, j.opcode ≠ .discard ∧ ∀ b ∈ j.bases, b ∈ i.bases) :
    Segment addr addr [] i (i.toNone :: seq) ∧ Tidy [] (i.toNone :: seq) := by
  have hcons : ∀ j ∈ i.toNone :: seq, j.opcode ≠ .discard ∧ ∀ b ∈ j.bases, b ∈ i.bases := by
    intro j hj
    rcases List.mem_cons.mp hj with rfl | hj
    · exact ⟨nofun, nofun⟩
    · exact hseq j hj
  refine ⟨⟨le_rfl, nofun, fun j hj b hb => Or.inl ((hcons j hj).2 b hb), ?_⟩, ?_, nofun⟩
  · intro j hj hop
    exact absurd hop (hcons j hj).1
  · refine List.Pairwise.imp_of_mem (R := fun _ _ => True) (fun hj _ _ hop => ?_)
      (List.pairwise_of_forall fun _ _ => trivial)
    exact absurd hop (hcons _ hj).1

theorem expandPowk_uses (hop : i.opcode = .power) (h : e.expandPowk i = some seq) :
    ∀ j ∈ seq, j.opcode ≠ .discard ∧ ∀ b ∈ j.bases, b ∈ i.bases := by
  have h0 : i.operand0 ∈ i.operands := by simp [BhInstruction.operands, hop, bhOperands]
  have h1 : i.operand1 ∈ i.operands := by simp [BhInstruction.operands, hop, bhOperands]
  have hmul : ∀ u v : BhView, u ∈ i.operands → v ∈ i.operands →
      (e.binary .multiply i.operand0 u v).opcode ≠ .discard ∧
        ∀ b ∈ (e.binary .multiply i.operand0 u v).bases, b ∈ i.bases := by
    intro u v hu hv
    refine ⟨show BhOpcode.multiply ≠ .discard by decide, fun b hb => ?_⟩
    rw [bases_binary e rfl] at hb
    simp only [List.mem_append, Option.mem_toList, or_assoc] at hb
    rcases hb with hb | hb | hb
    · exact mem_bases_of_operand h0 hb
    · exact mem_bases_of_operand hu hb
    · exact mem_bases_of_operand hv hb
  unfold expandPowk at h
  dsimp only at h
  split_ifs at h
  · cases h
    exact fun j hj => absurd hj List.not_mem_nil
  · cases h
    exact fun j hj => absurd hj List.not_mem_nil
  · cases h
    exact fun j hj => absurd hj List.not_mem_nil
  · split at h
    · obtain ⟨b, _, rfl⟩ := Option.map_eq_some_iff.mp h
      intro j hj
      rw [List.mem_singleton.mp hj]
      refine ⟨show BhOpcode.identity ≠ .discard by decide, fun b hb => ?_⟩
      rw [bases_unaryConst e rfl, Option.mem_toList] at hb
      exact mem_bases_of_operand h0 hb
    · cases h
      intro j hj
      rw [List.mem_singleton.mp hj]
      refine ⟨show BhOpcode.identity ≠ .discard by decide, fun b hb => ?_⟩
      rw [bases_unary e rfl] at hb
      simp only [List.mem_append, Option.mem_toList] at hb
      exact hb.elim (mem_bases_of_operand h0) (mem_bases_of_operand h1)
    -- the other exponents only multiply
    all_goals
      have h00 := hmul _ _ h0 h0
      have h01 := hmul _ _ h0 h1
      have h11 := hmul _ _ h1 h1
      cases h
      intro j hj
      simp only [List.mem_cons, List.mem_replicate, List.not_mem_nil, or_false] at hj
      grind

/-- The bases of a view are among those of `i` and the temporaries. -/
def Within (temps : List BhBase) (i : BhInstruction) (v : BhView) : Prop :=
  ∀ b, v.base = some b → b ∈ i.bases ∨ b ∈ temps

section Within
variable {temps : List BhBase} {opcode : BhOpcode} {out in1 in2 : BhView} (e)

theorem within_system (h : bhOperands opcode = 1) (hout : Within temps i out) :
    ∀ b ∈ (e.system opcode out).bases, b ∈ i.bases ∨ b ∈ temps := by
  intro b hb
  rw [bases_system e h, Option.mem_toList] at hb
  exact hout b hb

theorem within_unary (h : bhOperands opcode = 2) (hout : Within temps i out) (h1 : Within temps i in1) :
    ∀ b ∈ (e.unary opcode out in1).bases, b ∈ i.bases ∨ b ∈ temps := by
  intro b hb
  rw [bases_unary e h, List.mem_append, Option.mem_toList, Option.mem_toList] at hb
  exact hb.elim (hout b) (h1 b)

theorem within_binary (h : bhOperands opcode = 3) (hout : Within temps i out) (h1 : Within temps i in1)
    (h2 : Within temps i in2) :
    ∀ b ∈ (e.binary opcode out in1 in2).bases, b ∈ i.bases ∨ b ∈ temps := by
  intro b hb
  rw [bases_binary e h, List.mem_append, List.mem_append, Option.mem_toList, Option.mem_toList,
    Option.mem_toList] at hb
  exact hb.elim (fun hb => hb.elim (hout b) (h1 b)) (h2 b)

theorem within_binaryConst (h : bhOperands opcode = 3) (hout : Within temps i out) (h1 : Within temps i in1)
    (value : ℤ) (type : BhType) :
    ∀ b ∈ (e.binaryConst opcode out in1 value type).bases, b ∈ i.bases ∨ b ∈ temps := by
  intro b hb
  rw [bases_binaryConst e h, List.mem_append, Option.mem_toList, Option.mem_toList] at hb
  exact hb.elim (hout b) (h1 b)

end Within

/-- The products in a temporary and their sums. -/
theorem lifetime_productSum {out a3d b3d c3d : BhView} {t : BhBase} (hout : Within [t] i out)
    (ha : Within [t] i a3d) (hb : Within [t] i b3d) (hc : c3d.base = some t) (ht : t.addr = addr)
    (hseq : seq = [e.binary .multiply c3d a3d b3d, e.binaryConst .addReduce out c3d 2 .int64] ++ e.drop c3d) :
    Segment addr (addr + 1) [t] i (i.toNone :: seq) ∧ Tidy [t] (i.toNone :: seq) := by
  have hc3d : Within [t] i c3d := fun b hb => Or.inr (by simp_all)
  have hmultiply := bases_binary e (rfl : bhOperands .multiply = 3) c3d a3d b3d
  have hreduce := bases_binaryConst e (rfl : bhOperands .addReduce = 3) out c3d 2 .int64
  have hfree := bases_system e (rfl : bhOperands .free = 1) c3d
  have hdiscard := bases_system e (rfl : bhOperands .discard = 1) c3d
  subst hseq
  refine ⟨⟨by omega, by simp [ht], ?_, ?_⟩, ?_, ?_⟩
  · simp only [drop, List.cons_append, List.nil_append, List.forall_mem_cons, bases_toNone,
      List.not_mem_nil, false_imp_iff, implies_true, and_true, true_and]
    exact ⟨within_binary e rfl hc3d ha hb, within_binaryConst e rfl hout hc3d _ _,
      within_system e rfl hc3d, within_system e rfl hc3d⟩
  · simp [BhInstruction.toNone, binary, binaryConst, system, drop, hc]
  · simp [NoUseAfterDiscard, BhInstruction.toNone, binary, binaryConst, system, drop]
  · intro b hbt
    obtain rfl := List.mem_singleton.mp hbt
    refine releasedOnce_of e c3d [e.binary .multiply c3d a3d b3d,
      e.binaryConst .addReduce out c3d 2 .int64] ?_ ?_
    · simp [drop, bases_toNone, hmultiply, hreduce, hfree, hdiscard, hc]
    · simp [binary, binaryConst]

/-- The sequence of the complex `sign`, over its three temporaries. -/
theorem lifetime_signComplex {output input fAbs bZero fZero : BhView} {t₀ t₁ t₂ : BhBase} {type : BhType}
    (hout : ∀ b, output.base = some b → b ∈ i.bases) (hin : ∀ b, input.base = some b → b ∈ i.bases)
    (hold : ∀ t : BhBase, addr ≤ t.addr → t ∉ i.bases) (h₀ : fAbs.base = some t₀) (h₁ : bZero.base = some t₁)
    (h₂ : fZero.base = some t₂) (ha₀ : t₀.addr = addr) (ha₁ : t₁.addr = addr + 1) (ha₂ : t₂.addr = addr + 2)
    (hseq : seq = [e.unary .absolute fAbs input, e.binaryConst .equal bZero fAbs 0 type,
      e.unary .identity fZero bZero] ++ e.drop bZero ++ [e.binary .add fAbs fAbs fZero] ++ e.drop fZero ++
      [e.unary .identity output fAbs] ++ e.drop fAbs ++ [e.binary .divide output input output]) :
    Segment addr (addr + 3) [t₀, t₁, t₂] i (i.toNone :: seq) ∧ Tidy [t₀, t₁, t₂] (i.toNone :: seq) := by
  have hwout : Within [t₀, t₁, t₂] i output := fun b hb => Or.inl (hout b hb)
  have hwin : Within [t₀, t₁, t₂] i input := fun b hb => Or.inl (hin b hb)
  have hw₀ : Within [t₀, t₁, t₂] i fAbs := fun b hb => Or.inr (by simp_all)
  have hw₁ : Within [t₀, t₁, t₂] i bZero := fun b hb => Or.inr (by simp_all)
  have hw₂ : Within [t₀, t₁, t₂] i fZero := fun b hb => Or.inr (by simp_all)
  have hne : t₀ ≠ t₁ ∧ t₀ ≠ t₂ ∧ t₁ ≠ t₂ := by
    refine ⟨?_, ?_, ?_⟩ <;> rintro rfl <;> omega
  obtain ⟨hne₁, hne₂, hne₃⟩ := hne
  have hnew : ∀ t : BhBase, addr ≤ t.addr → output.base ≠ some t ∧ input.base ≠ some t :=
    fun t ht => ⟨fun hb => hold t ht (hout t hb), fun hb => hold t ht (hin t hb)⟩
  obtain ⟨ho₀, hi₀⟩ := hnew t₀ (by omega)
  obtain ⟨ho₁, hi₁⟩ := hnew t₁ (by omega)
  obtain ⟨ho₂, hi₂⟩ := hnew t₂ (by omega)
  have habs := bases_unary e (rfl : bhOperands .absolute = 2) fAbs input
  have hequal := bases_binaryConst e (rfl : bhOperands .equal = 3) bZero fAbs 0 type
  have hid := bases_unary e (rfl : bhOperands .identity = 2)
  have hadd := bases_binary e (rfl : bhOperands .add = 3) fAbs fAbs fZero
  have hdivide := bases_binary e (rfl : bhOperands .divide = 3) output input output
  have hfree := bases_system e (rfl : bhOperands .free = 1)
  have hdiscard := bases_system e (rfl : bhOperands .discard = 1)
  subst hseq
  simp only [drop, List.cons_append, List.nil_append]
  refine ⟨⟨by omega, by simp [ha₀, ha₁, ha₂], ?_, ?_⟩, ?_, ?_⟩
  · simp only [List.forall_mem_cons, bases_toNone, List.not_mem_nil, false_imp_iff, implies_true, and_true,
      true_and]
    exact ⟨within_unary e rfl hw₀ hwin, within_binaryConst e rfl hw₁ hw₀ _ _,
      within_unary e rfl hw₂ hw₁, within_system e rfl hw₁, within_system e rfl hw₁,
      within_binary e rfl hw₀ hw₀ hw₂, within_system e rfl hw₂, within_system e rfl hw₂,
      within_unary e rfl hwout hw₀, within_system e rfl hw₀, within_system e rfl hw₀,
      within_binary e rfl hwout hwin hwout⟩
  · simp [BhInstruction.toNone, unary, binary, binaryConst, system, h₀, h₁, h₂]
  · apply noUse_cons (show BhOpcode.none ≠ .discard by decide)
    apply noUse_cons (show BhOpcode.absolute ≠ .discard by decide)
    apply noUse_cons (show BhOpcode.equal ≠ .discard by decide)
    apply noUse_cons (show BhOpcode.identity ≠ .discard by decide)
    apply noUse_cons (show BhOpcode.free ≠ .discard by decide)
    apply noUse_discard h₁
    · simp [hadd, hid, hdivide, hfree, hdiscard, h₀, h₂, hne₁.symm, hne₃, ho₁, hi₁]
    apply noUse_cons (show BhOpcode.add ≠ .discard by decide)
    apply noUse_cons (show BhOpcode.free ≠ .discard by decide)
    apply noUse_discard h₂
    · simp [hid, hdivide, hfree, hdiscard, h₀, hne₂.symm, ho₂, hi₂]
    apply noUse_cons (show BhOpcode.identity ≠ .discard by decide)
    apply noUse_cons (show BhOpcode.free ≠ .discard by decide)
    apply noUse_discard h₀
    · simp [hdivide, ho₀, hi₀]
    exact noUse_cons (show BhOpcode.divide ≠ .discard by decide) List.Pairwise.nil
  · simp only [List.forall_mem_cons, List.not_mem_nil, false_imp_iff, implies_true, and_true]
    refine ⟨releasedOnce_of e fAbs [e.unary .absolute fAbs input, e.binaryConst .equal bZero fAbs 0 type,
        e.binary .add fAbs fAbs fZero, e.unary .identity output fAbs] ?_ ?_,
      releasedOnce_of e bZero [e.binaryConst .equal bZero fAbs 0 type, e.unary .identity fZero bZero] ?_ ?_,
      releasedOnce_of e fZero [e.unary .identity fZero bZero, e.binary .add fAbs fAbs fZero] ?_ ?_⟩
    · simp [drop, bases_toNone, habs, hequal, hid, hadd, hdivide, hfree, hdiscard, h₀, h₁, h₂, hne₁, hne₂, ho₀, hi₀]
    · simp [unary, binary, binaryConst]
    · simp [drop, bases_toNone, habs, hequal, hid, hadd, hdivide, hfree, hdiscard, h₀, h₁, h₂, hne₁.symm, hne₃, ho₁,
        hi₁]
    · simp [unary, binaryConst]
    · simp [drop, bases_toNone, habs, hequal, hid, hadd, hdivide, hfree, hdiscard, h₀, h₁, h₂, hne₂.symm, hne₃.symm,
        ho₂, hi₂]
    · simp [unary, binary]

/-- The sequence of the real `sign`: `BH_LESS` writes the temporary that was just discarded. -/
theorem lifetime_signReal {output input lss gtr tBool : BhView} {t₀ t₁ t₂ : BhBase} {type : BhType}
    (hout : ∀ b, output.base = some b → b ∈ i.bases) (hin : ∀ b, input.base = some b → b ∈ i.bases)
    (h₀ : lss.base = some t₀) (h₁ : gtr.base = some t₁) (h₂ : tBool.base = some t₂) (ha₀ : t₀.addr = addr)
    (ha₁ : t₁.addr = addr + 1) (ha₂ : t₂.addr = addr + 2)
    (hseq : seq = [e.binaryConst .greater tBool input 0 type, e.unary .identity lss tBool] ++ e.drop tBool ++
      [e.binaryConst .less tBool input 0 type, e.unary .identity gtr tBool] ++ e.drop tBool ++
      [e.binary .subtract output lss gtr] ++ e.drop lss ++ e.drop gtr) :
    Segment addr (addr + 3) [t₀, t₁, t₂] i (i.toNone :: seq) ∧ ¬ NoUseAfterDiscard (i.toNone :: seq) := by
  have hwout : Within [t₀, t₁, t₂] i output := fun b hb => Or.inl (hout b hb)
  have hwin : Within [t₀, t₁, t₂] i input := fun b hb => Or.inl (hin b hb)
  have hw₀ : Within [t₀, t₁, t₂] i lss := fun b hb => Or.inr (by simp_all)
  have hw₁ : Within [t₀, t₁, t₂] i gtr := fun b hb => Or.inr (by simp_all)
  have hw₂ : Within [t₀, t₁, t₂] i tBool := fun b hb => Or.inr (by simp_all)
  have hless := bases_binaryConst e (rfl : bhOperands .less = 3) tBool input 0 type
  subst hseq
  simp only [drop, List.cons_append, List.nil_append]
  refine ⟨⟨by omega, by simp [ha₀, ha₁, ha₂], ?_, ?_⟩, ?_⟩
  · simp only [List.forall_mem_cons, bases_toNone, List.not_mem_nil, false_imp_iff, implies_true, and_true,
      true_and]
    exact ⟨within_binaryConst e rfl hw₂ hwin _ _, within_unary e rfl hw₀ hw₂, within_system e rfl hw₂,
      within_system e rfl hw₂, within_binaryConst e rfl hw₂ hwin _ _, within_unary e rfl hw₁ hw₂,
      within_system e rfl hw₂, within_system e rfl hw₂, within_binary e rfl hwout hw₀ hw₁,
      within_system e rfl hw₀, within_system e rfl hw₀, within_system e rfl hw₁, within_system e rfl hw₁⟩
  · simp [BhInstruction.toNone, unary, binary, binaryConst, system, h₀, h₁, h₂]
  · intro hno
    have hpair : NoUseAfterDiscard [e.system .discard tBool, e.binaryConst .less tBool input 0 type] := by
      refine List.Pairwise.sublist ?_ hno
      iterate 4 apply List.Sublist.cons
      iterate 2 apply List.Sublist.cons_cons
      exact List.nil_sublist _
    have hmem : t₂ ∉ (e.binaryConst .less tBool input 0 type).bases :=
      List.rel_of_pairwise_cons hpair List.mem_cons_self rfl t₂ h₂
    rw [hless, h₂] at hmem
    exact hmem List.mem_cons_self

theorem expandMatmul_lifetime (hop : i.opcode = .matmul) (h : e.expandMatmul addr i = some seq) :
    ∃ temps, Segment addr (addr + 1) temps i (i.toNone :: seq) ∧ Tidy temps (i.toNone :: seq) := by
  have hops : i.operands = [i.operand0, i.operand1, i.operand2] := by
    simp [BhInstruction.operands, hop, bhOperands]
  have hmem : ∀ v ∈ i.operands, ∀ (temps : List BhBase) b, v.base = some b → b ∈ i.bases ∨ b ∈ temps :=
    fun v hv temps b hb => Or.inl (mem_bases_of_operand hv hb)
  simp only [hops, List.forall_mem_cons] at hmem
  obtain ⟨hout, ha, hb, -⟩ := hmem
  obtain ⟨base, _, hseq⟩ := Option.map_eq_some_iff.mp h
  refine ⟨_, lifetime_productSum ?_ ?_ ?_ rfl rfl hseq.symm⟩
  · exact hout _
  · exact ha _
  · exact hb _

/-- `expand_sign`: the complex sequence is tidy, the real one is not. -/
theorem expandSign_lifetime (hold : i.Older addr) (hop : i.opcode = .sign) (h : e.expandSign addr i = some seq) :
    ∃ temps, Segment addr (addr + 3) temps i (i.toNone :: seq) ∧
      ((∀ b ∈ i.operand1.base, b.type.isComplex = false) → ¬ NoUseAfterDiscard (i.toNone :: seq)) ∧
      (¬ (∀ b ∈ i.operand1.base, b.type.isComplex = false) → Tidy temps (i.toNone :: seq)) := by
  have hops : i.operands = [i.operand0, i.operand1] := by
    simp [BhInstruction.operands, hop, bhOperands]
  have hmem : ∀ v ∈ i.operands, ∀ b, v.base = some b → b ∈ i.bases := fun v hv b => mem_bases_of_operand hv
  simp only [hops, List.forall_mem_cons] at hmem
  obtain ⟨hout, hin, -⟩ := hmem
  obtain ⟨base, hbase, hseq⟩ := Option.map_eq_some_iff.mp h
  have hreal : (∀ b ∈ i.operand1.base, b.type.isComplex = false) ↔
      base.type ≠ .complex64 ∧ base.type ≠ .complex128 := by
    simp [hbase, BhType.isComplex]
  rw [hreal]
  dsimp only at hseq
  by_cases hty : base.type ≠ .complex64 ∧ base.type ≠ .complex128
  · rw [if_pos hty] at hseq
    obtain ⟨hseg, hbad⟩ := lifetime_signReal hout hin rfl rfl rfl rfl rfl rfl hseq.symm
    exact ⟨_, hseg, fun _ => hbad, fun h => absurd hty h⟩
  · rw [if_neg hty] at hseq
    have hnew : ∀ t : BhBase, addr ≤ t.addr → t ∉ i.bases := fun t => not_mem_bases_of_older hold
    obtain ⟨hseg, htidy⟩ := lifetime_signComplex hout hin hnew rfl rfl rfl rfl rfl rfl hseq.symm
    exact ⟨_, hseg, fun h => absurd h hty, fun _ => htidy⟩

/-- What stands in the place of an instruction uses old bases that the instruction uses, and its
temporaries live as they should unless it is a real `sign`. -/
theorem expansion_lifetime {addr' : ℕ} (hold : i.Older addr) (h : e.expansion addr i = some (seq, addr')) :
    ∃ temps, Segment addr addr' temps i seq ∧ (e.RealSign i → ¬ NoUseAfterDiscard seq) ∧
      (¬ e.RealSign i → Tidy temps seq) := by
  have hstay : ¬ e.RealSign i → some ([i], addr) = some (seq, addr') →
      ∃ temps, Segment addr addr' temps i seq ∧ (e.RealSign i → ¬ NoUseAfterDiscard seq) ∧
        (¬ e.RealSign i → Tidy temps seq) := by
    intro hreal heq
    cases heq
    exact ⟨[], segment_self addr i, fun h => absurd h hreal, fun _ => tidy_self i⟩
  have hother : i.opcode ≠ .sign → ¬ e.RealSign i := fun hne hreal => hne hreal.2.1
  unfold expansion at h
  split at h
  · rename_i hop
    have hreal := hother (by simp [hop])
    split_ifs at h with hflag
    · obtain ⟨tail, htail, hseq⟩ := Option.map_eq_some_iff.mp h
      split_ifs at hseq with hnil
      · exact hstay hreal (congrArg some hseq)
      · cases hseq
        obtain ⟨hseg, htidy⟩ := lifetime_of_no_discard addr (expandPowk_uses hop htail)
        exact ⟨[], hseg, fun h => absurd h hreal, fun _ => htidy⟩
    · exact hstay hreal h
  · rename_i hop
    have hreal := hother (by simp [hop])
    split_ifs at h with hflag
    · obtain ⟨tail, htail, hseq⟩ := Option.map_eq_some_iff.mp h
      cases hseq
      obtain ⟨temps, hseg, htidy⟩ := expandMatmul_lifetime hop htail
      exact ⟨temps, hseg, fun h => absurd h hreal, fun _ => htidy⟩
    · exact hstay hreal h
  · rename_i hop
    split_ifs at h with hflag
    · obtain ⟨tail, htail, hseq⟩ := Option.map_eq_some_iff.mp h
      cases hseq
      obtain ⟨temps, hseg, hbad, htidy⟩ := expandSign_lifetime hold hop htail
      exact ⟨temps, hseg, fun h => hbad h.2.2, fun h => htidy fun hc => h ⟨hflag, hop, hc⟩⟩
    · exact hstay (fun hreal => hflag hreal.1) h
  · rename_i hne
    exact hstay (hother hne) h

end Sequences

/-! ## Whole lists -/

section Lists
variable {e : Expander} {addr : ℕ} {l l' : List BhInstruction}

/-- The list uses no base but those of the old list and temporaries from `addr` on. -/
theorem expandAll_uses (hold : ∀ i ∈ l, i.Older addr) (h : e.expandAll addr l = some l') :
    ∀ j ∈ l', ∀ b ∈ j.bases, (∃ i ∈ l, b ∈ i.bases) ∨ addr ≤ b.addr := by
  induction l generalizing addr l' with
  | nil =>
    cases h
    simp
  | cons i l ih =>
    obtain ⟨⟨seg, addr'⟩, hseg, h⟩ := Option.bind_eq_some_iff.mp h
    obtain ⟨rest, hrest, rfl⟩ := Option.map_eq_some_iff.mp h
    obtain ⟨temps, hs, _⟩ := expansion_lifetime (hold i List.mem_cons_self) hseg
    have hold' : ∀ j ∈ l, j.Older addr' := fun j hj v hv b hb =>
      (hold j (List.mem_cons_of_mem i hj) v hv b hb).trans_le hs.le
    intro j hj b hb
    rcases List.mem_append.mp hj with hj | hj
    · rcases hs.uses j hj b hb with hbi | hbt
      · exact Or.inl ⟨i, List.mem_cons_self, hbi⟩
      · exact Or.inr (hs.range b hbt).1
    · rcases ih hold' hrest j hj b hb with ⟨k, hk, hbk⟩ | hle
      · exact Or.inl ⟨k, List.mem_cons_of_mem i hk, hbk⟩
      · exact Or.inr (hs.le.trans hle)

theorem expandAll_lifetimes (hold : ∀ i ∈ l, i.Older addr) (hl : NoUseAfterDiscard l)
    (h : e.expandAll addr l = some l') (hreal : ∀ i ∈ l, ¬ e.RealSign i) :
    NoUseAfterDiscard l' ∧ ∀ b : BhBase, addr ≤ b.addr → (∃ j ∈ l', b ∈ j.bases) → ReleasedOnce b l' := by
  induction l generalizing addr l' with
  | nil =>
    cases h
    exact ⟨List.Pairwise.nil, by simp⟩
  | cons i l ih =>
    obtain ⟨⟨seg, addr'⟩, hseg, h⟩ := Option.bind_eq_some_iff.mp h
    obtain ⟨rest, hrest, rfl⟩ := Option.map_eq_some_iff.mp h
    obtain ⟨temps, hs, _, htidy⟩ := expansion_lifetime (hold i List.mem_cons_self) hseg
    have htidy := htidy (hreal i List.mem_cons_self)
    have hold' : ∀ j ∈ l, j.Older addr' := fun j hj v hv b hb =>
      (hold j (List.mem_cons_of_mem i hj) v hv b hb).trans_le hs.le
    have holdi : ∀ j ∈ i :: l, ∀ b ∈ j.bases, b.addr < addr := fun j hj b hb => by
      by_contra hge
      exact not_mem_bases_of_older (hold j hj) (Nat.le_of_not_lt hge) hb
    have huses := expandAll_uses hold' hrest
    obtain ⟨hrestNo, hrestOnce⟩ := ih hold' (List.Pairwise.of_cons hl) hrest fun j hj =>
      hreal j (List.mem_cons_of_mem i hj)
    -- a temporary of the segment is not used behind it
    have hfresh : ∀ t ∈ temps, ∀ j ∈ rest, t ∉ j.bases := by
      intro t ht j hj hmem
      obtain ⟨hge, hlt⟩ := hs.range t ht
      rcases huses j hj t hmem with ⟨k, hk, hbk⟩ | hle
      · have := holdi k (List.mem_cons_of_mem i hk) t hbk
        omega
      · omega
    refine ⟨List.pairwise_append.mpr ⟨htidy.noUse, hrestNo, ?_⟩, ?_⟩
    · intro j hj k hk hop b hb hmem
      rcases hs.discards j hj hop with rfl | htemp
      · -- a discard of the old list
        have hbi : b ∈ j.bases := mem_bases_of_operand (j.operand0_mem (by simp [hop, bhOperands])) hb
        rcases huses k hk b hmem with ⟨k', hk', hbk'⟩ | hle
        · exact List.rel_of_pairwise_cons hl hk' hop b hb hbk'
        · have := holdi j List.mem_cons_self b hbi
          have := hs.le
          omega
      · exact hfresh b (htemp b hb) k hk hmem
    · intro b hb huse
      by_cases hbt : b ∈ temps
      · have hnone : rest.filter (b ∈ ·.bases) = [] :=
          List.filter_eq_nil_iff.mpr fun j hj => by simpa using hfresh b hbt j hj
        obtain ⟨uses, free, discard, hfilter, hfd⟩ := htidy.once b hbt
        exact ⟨uses, free, discard, by rw [List.filter_append, hfilter, hnone, List.append_nil], hfd⟩
      · have hnone : seg.filter (b ∈ ·.bases) = [] := by
          refine List.filter_eq_nil_iff.mpr fun j hj => ?_
          simp only [decide_eq_true_eq]
          intro hbj
          rcases hs.uses j hj b hbj with hbi | hbt'
          · have := holdi i List.mem_cons_self b hbi
            omega
          · exact hbt hbt'
        have hrestUse : ∃ j ∈ rest, b ∈ j.bases := by
          obtain ⟨j, hj, hbj⟩ := huse
          rcases List.mem_append.mp hj with hj | hj
          · exact absurd hbj (by simpa using List.filter_eq_nil_iff.mp hnone j hj)
          · exact ⟨j, hj, hbj⟩
        have hge : addr' ≤ b.addr := by
          obtain ⟨j, hj, hbj⟩ := hrestUse
          rcases huses j hj b hbj with ⟨k, hk, hbk⟩ | hle
          · have := holdi k (List.mem_cons_of_mem i hk) b hbk
            omega
          · exact hle
        obtain ⟨uses, free, discard, hfilter, hfd⟩ := hrestOnce b hge hrestUse
        exact ⟨uses, free, discard, by rw [List.filter_append, hnone, hfilter, List.nil_append], hfd⟩

/-- Each real `sign` uses a base after its `BH_DISCARD`. -/
theorem expandAll_realSign (hold : ∀ i ∈ l, i.Older addr) (h : e.expandAll addr l = some l')
    (hno : NoUseAfterDiscard l') : ∀ i ∈ l, ¬ e.RealSign i := by
  induction l generalizing addr l' with
  | nil => simp
  | cons i l ih =>
    obtain ⟨⟨seg, addr'⟩, hseg, h⟩ := Option.bind_eq_some_iff.mp h
    obtain ⟨rest, hrest, rfl⟩ := Option.map_eq_some_iff.mp h
    obtain ⟨temps, hs, hbad, _⟩ := expansion_lifetime (hold i List.mem_cons_self) hseg
    have hold' : ∀ j ∈ l, j.Older addr' := fun j hj v hv b hb =>
      (hold j (List.mem_cons_of_mem i hj) v hv b hb).trans_le hs.le
    obtain ⟨hnoSeg, hnoRest, _⟩ := List.pairwise_append.mp hno
    intro j hj hreal
    rcases List.mem_cons.mp hj with rfl | hj
    · exact hbad hreal hnoSeg
    · exact ih hold' hrest hnoRest j hj hreal

/-- The expanded list respects the lifetime of every array exactly if it expands no real `sign`. -/
theorem expand_lifetimes_iff (e : Expander) (addr : ℕ) (l l' : List BhInstruction)
    (hold : ∀ i ∈ l, i.Older addr) (hl : NoUseAfterDiscard l) (h : e.expand addr l = some l') :
    (NoUseAfterDiscard l' ∧ ∀ b : BhBase, addr ≤ b.addr → (∃ j ∈ l', b ∈ j.bases) → ReleasedOnce b l') ↔
      ∀ i ∈ l, ¬ e.RealSign i := by
  rw [expand_eq] at h
  constructor
  · intro hlives
    exact expandAll_realSign hold h hlives.1
  · exact expandAll_lifetimes hold hl h

end Lists
end Expander

/-- `z = sign(x)` on complex numbers, with `x` released behind it. -/
def signThenRelease : List BhInstruction :=
  let z : BhView := ⟨some ⟨0, .complex64, 1⟩, 0, [⟨1, 1⟩]⟩
  let x : BhView := ⟨some ⟨1, .complex64, 1⟩, 0, [⟨1, 1⟩]⟩
  [⟨.sign, z, x, x, .int .int64 0⟩, ⟨.free, x, x, x, .int .int64 0⟩, ⟨.discard, x, x, x, .int .int64 0⟩]

theorem expand_lifetimes_signThenRelease : ∃ l', allExpansions.expand 2 signThenRelease = some l' ∧
    NoUseAfterDiscard l' ∧ ∀ b : BhBase, 2 ≤ b.addr → (∃ j ∈ l', b ∈ j.bases) → ReleasedOnce b l' := by
  obtain ⟨l', hl'⟩ : ∃ l', allExpansions.expand 2 signThenRelease = some l' := ⟨_, rfl⟩
  exact ⟨l', hl', (Expander.expand_lifetimes_iff allExpansions 2 signThenRelease l' (by decide) (by decide)
    hl').mpr (by decide)⟩

/-- `z = sign(x)` on real numbers. -/
def signReal : List BhInstruction :=
  let z : BhView := ⟨some ⟨0, .float64, 1⟩, 0, [⟨1, 1⟩]⟩
  let x : BhView := ⟨some ⟨1, .float64, 1⟩, 0, [⟨1, 1⟩]⟩
  [⟨.sign, z, x, x, .int .int64 0⟩]

theorem not_expand_lifetimes_signReal : (∀ i ∈ signReal, i.Older 2) ∧ NoUseAfterDiscard signReal ∧
    ∃ l', allExpansions.expand 2 signReal = some l' ∧ ¬ NoUseAfterDiscard l' ∧
      ∃ b : BhBase, 2 ≤ b.addr ∧ (∃ j ∈ l', b ∈ j.bases) ∧
        2 ≤ (l'.filter fun j => j.opcode == .free && b ∈ j.bases).length := by
  refine ⟨by decide, by decide, ?_⟩
  rw [Expander.expand_eq]
  refine ⟨_, rfl, by decide, ⟨4, .bool, 1⟩, by decide, by decide, by decide⟩

end Bohrium
