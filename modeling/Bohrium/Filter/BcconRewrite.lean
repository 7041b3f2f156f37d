import Bohrium.Filter.Bccon

/-! # The list after a rewrite

A rewrite that stays on its trail puts the result into the first reduction and strikes everything
that touches an intermediate (`filterAt_eq`). It leaves the other chains of the list as they were
(`chainKept_filterAt`), so a condition on the list as it comes in holds at every turn of the loop. -/
namespace Bohrium.Bccon
set_option autoImplicit false

theorem toNone_toNone (i : BhInstruction) : i.toNone.toNone = i.toNone := rfl

theorem getElem?_foldl_toNone (links : List ℕ) (l : List BhInstruction) (j : ℕ) :
    (links.foldl (fun l k => l.modify k BhInstruction.toNone) l)[j]? =
      l[j]?.map fun i => if links.contains j then i.toNone else i := by
  induction links generalizing l with
  | nil => simp
  | cons k links ih =>
    rw [List.foldl_cons, ih, List.getElem?_modify]
    cases l[j]? with
    | none => rfl
    | some i =>
      by_cases hk : k = j
      · by_cases hj : links.contains j = true <;> simp [hk, toNone_toNone]
      · simp [hk, Ne.symm hk]

theorem getElem?_rewriteChain {l : List BhInstruction} {links : List ℕ} {first last : ℕ}
    {z : BhInstruction} (hz : l[last]? = some z) (hlinks : first ∉ links) (hlast : last ≠ first) (j : ℕ) :
    (rewriteChain l links first last)[j]? = l[j]?.map fun i =>
      if j = first then { i with operand0 := z.operand0 }
      else if links.contains j || last == j then i.toNone else i := by
  unfold rewriteChain
  rw [getElem?_foldl_toNone, List.getElem?_modify, List.getElem?_modify]
  cases hj : l[j]? with
  | none => rfl
  | some i =>
    by_cases hf : j = first
    · subst hf
      simp [hz, hlinks, hlast]
    · by_cases hl : last = j
      · by_cases hc : links.contains j = true <;> simp [hf, Ne.symm hf, hl, toNone_toNone]
      · simp [hf, Ne.symm hf, hl]

section Filter
variable {dead : List BhBase} {l : List BhInstruction} {pc : ℕ} {i : BhInstruction}

theorem isReduction_of_beginsChain (h : beginsChain i = true) : bhOpcodeIsReduction i.opcode = true :=
  (Bool.and_eq_true_iff.mp h).1

theorem tracks_start (i : BhInstruction) (pc : ℕ) :
    (Search.start i pc).Tracks i.opcode pc (Trail.start i) := ⟨rfl, rfl, rfl, rfl⟩

/-- The list after a chain on a trail has been rewritten. -/
theorem filterAt_eq {k : ℕ} {z : BhInstruction} {t : Trail} (hi : l[pc]? = some i)
    (hbegin : beginsChain i = true) (hlast : (search l pc i).last = some k) (hz : l[k]? = some z)
    (h : (Trail.start i).followAll dead i.opcode z.operand0 (l.drop (pc + 1)) = some t) :
    filterAt l pc = l.take pc ++ { i with operand0 := z.operand0 } ::
      strike i.opcode i.operand0.base.toList (l.drop (pc + 1)) := by
  obtain ⟨hpc, rfl⟩ := List.getElem?_eq_some_iff.mp hi
  obtain ⟨hfirst, _, hbelow, hget⟩ := (tracks_start l[pc] pc).over (isReduction_of_beginsChain hbegin)
    (Trail.valid_start hbegin) (n := pc + 1) (by simp [Search.marks, Search.start]) h
  have hmarks : ∀ j, ((search l pc l[pc]).links.contains j || k == j) = (search l pc l[pc]).marks j := by
    intro j
    simp [Search.marks, hlast, Option.some_beq_some]
  have hsmall : ∀ j ≤ pc, (search l pc l[pc]).marks j = false := by
    intro j hj
    rw [search, hbelow j (Nat.lt_succ_of_le hj)]
    rfl
  have hout : (pc ∉ (search l pc l[pc]).links) ∧ k ≠ pc := by
    have h0 := hsmall pc le_rfl
    rw [← hmarks] at h0
    simpa using h0
  have hrw : filterAt l pc = rewriteChain l (search l pc l[pc]).links pc k := by
    simp only [filterAt, hi, hbegin, if_true, search, hfirst]
    rw [← search, hlast]
  rw [hrw]
  apply List.ext_getElem?
  intro j
  rw [getElem?_rewriteChain hz hout.1 hout.2, hmarks]
  rcases Nat.lt_trichotomy j pc with hj | hj | hj
  · rw [List.getElem?_append_left (by simp; omega), List.getElem?_take_of_lt hj, hsmall j hj.le]
    simp [hj.ne]
  · subst hj
    rw [List.getElem?_append_right (by simp)]
    simp [hi, Nat.min_eq_left hpc.le]
  · obtain ⟨d, rfl⟩ : ∃ d, j = pc + 1 + d := ⟨j - (pc + 1), by omega⟩
    rw [List.getElem?_append_right (by simp; omega), List.length_take, Nat.min_eq_left hpc.le]
    rw [show pc + 1 + d - pc = d + 1 by omega, List.getElem?_cons_succ]
    have hd := hget d
    rw [List.getElem?_drop] at hd
    have hne : pc + 1 + d ≠ pc := by omega
    simp only [if_neg hne]
    exact hd.symm

/-! ## The other chains -/

/-- A chain that is broken is not taken up again. -/
theorem Search.over_broken {s : Search} (h : s.first = none) (l : List BhInstruction) (n : ℕ) : (s.over l n).first = none := by
  induction l generalizing s n with
  | nil => exact h
  | cons i l ih =>
    rw [Search.over_cons]
    apply ih
    cases hu : usesBases s.bases i with
    | false => rw [Search.next_of_not_uses hu, h]
    | true =>
      simp only [Search.next, hu, Bool.not_true, Bool.false_eq_true, if_false]
      cases i.opcode == .free || i.opcode == .discard || i.opcode == s.reduceOpcode with
      | false => cases i.isComplete <;> rfl
      | true => cases i.isComplete <;> exact h

/-- A search finds the end of the chain. -/
theorem Search.over_chainEnd {s : Search} {z : BhInstruction} (h : s.first.isSome) (pre l : List BhInstruction) :
    chainEnd s.reduceOpcode s.bases (s.last.bind ((pre ++ l)[·]?)) l = some z ↔
      (s.over l pre.length).first.isSome ∧ ∃ k, (s.over l pre.length).last = some k ∧ (pre ++ l)[k]? = some z := by
  induction l generalizing s pre with
  | nil =>
    rw [chainEnd, Option.bind_eq_some_iff]
    exact (and_iff_right h).symm
  | cons i l ih =>
    have hlist : pre ++ i :: l = (pre ++ [i]) ++ l := by rw [List.append_assoc, List.singleton_append]
    have hat : ((pre ++ [i]) ++ l)[pre.length]? = some i := by
      rw [← hlist, List.getElem?_append_right le_rfl, Nat.sub_self, List.getElem?_cons_zero]
    have hlength : pre.length + 1 = (pre ++ [i]).length := by rw [List.length_append, List.length_singleton]
    rw [Search.over_cons, hlist, hlength, chainEnd]
    cases hu : usesBases s.bases i with
    | false =>
      rw [if_pos rfl, Search.next_of_not_uses hu]
      exact ih h _
    | true =>
      rw [if_neg Bool.true_eq_false.mp]
      by_cases hbreaks : i.opcode ≠ .free ∧ i.opcode ≠ .discard ∧ i.opcode ≠ s.reduceOpcode
      · have hnone : (s.next i pre.length).first = none := by
          simp only [Search.next, hu, hbreaks.1, hbreaks.2.1, hbreaks.2.2, beq_iff_eq, Bool.or_eq_true, Bool.not_true,
            or_self, if_false, Bool.false_eq_true, Search.reset]
          split_ifs <;> rfl
        rw [if_pos hbreaks, Search.over_broken hnone]
        simp
      · have hgoes : (i.opcode == .free || i.opcode == .discard || i.opcode == s.reduceOpcode) = true := by
          by_contra hno
          simp only [Bool.or_eq_true, beq_iff_eq, not_or, and_assoc] at hno
          exact hbreaks hno
        rw [if_neg hbreaks]
        by_cases hc : i.isComplete = true
        · have hnext : s.next i pre.length = { s with last := some pre.length } := by
            simp [Search.next, hu, hgoes, hc]
          have hrest := @ih { s with last := some pre.length } h (pre ++ [i])
          rw [Option.bind_some, hat] at hrest
          rw [if_pos hc, hnext]
          exact hrest
        · have hnext : s.next i pre.length = { s with
              links := s.links ++ [pre.length]
              bases := if i.opcode = s.reduceOpcode then i.operand0.base.toList ++ s.bases else s.bases } := by
            simp [Search.next, hu, hgoes, hc]
          rw [if_neg hc, hnext]
          exact @ih { s with
            links := s.links ++ [pre.length]
            bases := if i.opcode = s.reduceOpcode then i.operand0.base.toList ++ s.bases else s.bases } h (pre ++ [i])

theorem chainEnd_eq_some_iff {z : BhInstruction} (hi : l[pc]? = some i) :
    chainEnd i.opcode i.operand0.base.toList none (l.drop (pc + 1)) = some z ↔
      (search l pc i).first.isSome ∧ ∃ k, (search l pc i).last = some k ∧ l[k]? = some z := by
  obtain ⟨hpc, -⟩ := List.getElem?_eq_some_iff.mp hi
  have hlength : (l.take (pc + 1)).length = pc + 1 := by
    rw [List.length_take]
    omega
  have hover := Search.over_chainEnd (s := Search.start i pc) (z := z) rfl (l.take (pc + 1)) (l.drop (pc + 1))
  rw [hlength, List.take_append_drop] at hover
  exact hover

/-- The chains with an end are the ones that a search finds. -/
theorem chainKept_iff : chainKept dead l pc = true ↔
    ∀ i, l[pc]? = some i → beginsChain i = true → ∀ k z, (search l pc i).first.isSome →
      (search l pc i).last = some k → l[k]? = some z → i.operand0.base.all dead.contains = true ∧
        ∃ t, (Trail.start i).followAll dead i.opcode z.operand0 (l.drop (pc + 1)) = some t := by
  unfold chainKept
  cases hi : l[pc]? with
  | none => simp
  | some i =>
    simp only [Bool.or_eq_true, Bool.not_eq_true', Option.all_eq_true, Bool.and_eq_true, Option.isSome_iff_exists]
    constructor
    · intro h j hj hbegin k z hfirst hlast hz
      obtain rfl := Option.some.inj hj
      have hend := (chainEnd_eq_some_iff hi).mpr ⟨Option.isSome_iff_exists.mpr (by simpa using hfirst), k, hlast, hz⟩
      exact h.resolve_left (by rw [hbegin]; exact Bool.noConfusion) z hend
    · intro h
      cases hbegin : beginsChain i with
      | false => exact Or.inl rfl
      | true =>
        refine Or.inr fun z hend => ?_
        obtain ⟨hfirst, k, hlast, hz⟩ := (chainEnd_eq_some_iff hi).mp hend
        exact h i rfl hbegin k z (by simpa [Option.isSome_iff_exists] using hfirst) hlast hz

variable {opcode : BhOpcode} {out : BhView} {t t' : Trail}

theorem strike_append {l₁ : List BhInstruction} (hop : bhOpcodeIsReduction opcode = true) (l₂ : List BhInstruction)
    (h : t.followAll dead opcode out (l₁ ++ l₂) = some t') :
    ∃ t₁ : Trail, t₁.followAll dead opcode out l₂ = some t' ∧
      strike opcode t.bases (l₁ ++ l₂) = strike opcode t.bases l₁ ++ strike opcode t₁.bases l₂ := by
  induction l₁ generalizing t with
  | nil => exact ⟨t, h, rfl⟩
  | cons i l₁ ih =>
    obtain ⟨t₀, hstep, hrest⟩ := Trail.followAll_cons h
    obtain ⟨t₁, hfollow, heq⟩ := ih hrest
    refine ⟨t₁, hfollow, ?_⟩
    rw [List.cons_append, strike_cons hop hstep, strike_cons hop hstep, heq, List.cons_append]

theorem length_strike (opcode : BhOpcode) (bases : List BhBase) (l : List BhInstruction) :
    (strike opcode bases l).length = l.length := by
  induction l generalizing bases with
  | nil => rfl
  | cons i l ih =>
    unfold strike
    split <;> simp [ih]

theorem strike_operand0 (opcode : BhOpcode) (bases : List BhBase) (l : List BhInstruction) :
    (strike opcode bases l).map BhInstruction.operand0 = l.map BhInstruction.operand0 := by
  induction l generalizing bases with
  | nil => rfl
  | cons i l ih =>
    unfold strike
    split <;> simp [ih, BhInstruction.toNone]

/-- The bases of another chain: written by reductions since this one began, and none of its own. -/
def Apart (bases : List BhBase) (t : Trail) : Prop := ∀ b ∈ bases, b ∉ t.bases ∧ b ∈ t.reduced

/-- What a rewrite strikes, no other chain has seen. -/
theorem Apart.not_uses {bases : List BhBase} (h : Apart bases t) (hstep : t.Step dead opcode out i t')
    (hu : usesBases t.bases i = true) : usesBases bases i = false := by
  have key : (∀ v ∈ i.operands, ∀ b, v.base = some b → b ∈ t.bases ∨ b ∉ t.reduced) →
      usesBases bases i = false := by
    intro hown
    by_contra hub
    obtain ⟨v, hv, b, hb, hvb⟩ := usesBases_iff.mp (Bool.not_eq_false _ ▸ hub)
    rcases hown v hv b hvb with hin | hout
    · exact (h b hb).1 hin
    · exact hout (h b hb).2
  have howns : t.owns i = true → ∀ v ∈ i.operands, ∀ b, v.base = some b → b ∈ t.bases ∨ b ∉ t.reduced := by
    intro hown v hv b hvb
    have hall := List.all_eq_true.mp hown v hv
    rw [hvb] at hall
    simpa using hall
  cases hstep with
  | pass hu' hout => rw [hu] at hu'; cases hu'
  | release _ ho =>
    apply key
    intro v hv b hvb
    obtain ⟨w, hw, c, hc, hwc⟩ := usesBases_iff.mp hu
    have hone : i.operands = [i.operand0] := by
      rcases ho with ho | ho <;> simp [BhInstruction.operands, ho, bhOperands]
    rw [hone, List.mem_singleton] at hv hw
    subst hv hw
    rw [hvb] at hwc
    exact Or.inl (Option.some.inj hwc ▸ hc)
  | last _ ho hown hc hfree hw hout => exact key (howns hown)
  | link _ ho hown hc hdead => exact key (howns hown)

/-- A chain that has just seen an instruction `i` which this one passes. -/
theorem Apart.pass {bases : List BhBase} (h : Apart bases t) (hu : usesBases t.bases i = false) :
    Apart bases (t.pass i) ∧ (bhOpcodeIsReduction i.opcode = true →
      Apart (i.operand0.base.toList ++ bases) (t.pass i)) := by
  have hmono : ∀ b ∈ t.reduced, b ∈ (t.pass i).reduced := by
    intro b hb
    unfold Trail.pass
    split
    · exact List.mem_append_right _ hb
    · exact hb
  have hold : Apart bases (t.pass i) := by
    intro b hb
    rw [Trail.pass_bases]
    exact ⟨(h b hb).1, hmono b (h b hb).2⟩
  refine ⟨hold, fun hred b hb => ?_⟩
  rcases List.mem_append.mp hb with hb | hb
  · rw [Option.mem_toList] at hb
    have hnop : bhOperands i.opcode ≠ 0 := by
      rw [Ne, bhOperands_eq_zero_iff]
      intro ho
      simp [ho, bhOpcodeIsReduction] at hred
    rw [Trail.pass_bases]
    refine ⟨usesBases_eq_false hu (BhInstruction.operand0_mem hnop) hb, ?_⟩
    simp [Trail.pass, hred, hb]
  · exact hold b hb

theorem Apart.strike {bases : List BhBase} (h : Apart bases t) (hstep : t.Step dead opcode out i t')
    (hu : usesBases t.bases i = true) : Apart bases t' := by
  have hnot := h.not_uses hstep hu
  cases hstep with
  | pass hu' hout => rw [hu] at hu'; cases hu'
  | release _ ho => exact h
  | last _ ho hown hc hfree hw hout => exact h
  | link _ ho hown hc hdead =>
    intro b hb
    refine ⟨fun hmem => ?_, List.mem_append_right _ (h b hb).2⟩
    rcases List.mem_append.mp hmem with hmem | hmem
    · rw [Option.mem_toList] at hmem
      have hnop : bhOperands i.opcode ≠ 0 := by
        intro h0
        simp [usesBases, BhInstruction.operands_of_nop_zero h0] at hu
      exact usesBases_eq_false hnot (BhInstruction.operand0_mem hnop) hmem hb
    · exact (h b hb).1 hmem

/-- A search gains the output of a reduction of its own opcode, and nothing else. -/
theorem Search.next_bases (s : Search) (i : BhInstruction) (k : ℕ) :
    ((s.next i k).reduceOpcode = s.reduceOpcode ∨ (s.next i k).reduceOpcode = .none) ∧
      ∀ b ∈ (s.next i k).bases, b ∈ s.bases ∨
        (b ∈ i.operand0.base.toList ∧ i.opcode = s.reduceOpcode ∧ i.opcode ≠ .none) := by
  cases hu : usesBases s.bases i with
  | false =>
    rw [Search.next_of_not_uses hu]
    exact ⟨Or.inl rfl, fun b hb => Or.inl hb⟩
  | true =>
    have hne : i.opcode ≠ .none := by
      intro ho
      simp [usesBases, BhInstruction.operands, ho, bhOperands] at hu
    by_cases hcont : i.opcode = .free ∨ i.opcode = .discard ∨ i.opcode = s.reduceOpcode
    · cases hc : i.isComplete with
      | true =>
        simp only [Search.next, hu, hc, Bool.not_true, Bool.or_assoc, Bool.or_eq_true, beq_iff_eq, hcont,
          if_true, Bool.false_eq_true, if_false]
        exact ⟨Or.inl trivial, fun b hb => Or.inl hb⟩
      | false =>
        simp only [Search.next, hu, hc, Bool.not_true, Bool.or_assoc, Bool.or_eq_true, beq_iff_eq, hcont,
          if_true, Bool.false_eq_true, if_false]
        refine ⟨Or.inl trivial, fun b hb => ?_⟩
        split_ifs at hb with ho
        · rcases List.mem_append.mp hb with hb | hb
          · exact Or.inr ⟨hb, ho, hne⟩
          · exact Or.inl hb
        · exact Or.inl hb
    · simp only [Search.next, hu, Bool.not_true, Bool.or_assoc, Bool.or_eq_true, beq_iff_eq, hcont,
        Search.reset, hne, Bool.false_eq_true, if_false]
      split_ifs <;> simp

/-- Another search runs over the struck list as over the list itself. -/
theorem Search.over_strike {s : Search} (hop : bhOpcodeIsReduction opcode = true)
    (hs : Apart s.bases t) (hso : bhOpcodeIsReduction s.reduceOpcode = true ∨ s.reduceOpcode = .none)
    (h : t.followAll dead opcode out l = some t') (n : ℕ) :
    s.over (strike opcode t.bases l) n = s.over l n := by
  induction l generalizing s t n with
  | nil => rfl
  | cons i l ih =>
    obtain ⟨t₁, hstep, hrest⟩ := Trail.followAll_cons h
    rw [strike_cons hop hstep, Search.over_cons, Search.over_cons]
    cases hu : usesBases t.bases i with
    | true =>
      rw [if_pos rfl, Search.next_of_not_uses (usesBases_toNone _ i),
        Search.next_of_not_uses (hs.not_uses hstep hu)]
      exact ih (hs.strike hstep hu) hso hrest (n + 1)
    | false =>
      rw [if_neg (by simp)]
      obtain rfl := hstep.eq_pass hu
      obtain ⟨hold, hnew⟩ := hs.pass hu
      obtain ⟨hopc, hbases⟩ := Search.next_bases s i n
      refine ih (fun b hmem => ?_) ?_ hrest (n + 1)
      · rcases hbases b hmem with hmem | ⟨hmem, ho, hne⟩
        · exact hold b hmem
        · exact hnew (ho ▸ hso.resolve_right (ho ▸ hne)) b (List.mem_append_left _ hmem)
      · rcases hopc with ho | ho
        · exact ho ▸ hso
        · exact Or.inr ho

/-- A trail that has seen fewer reductions. -/
structure Trail.Le (u t : Trail) : Prop where
  bases : u.bases = t.bases
  whole : u.whole = t.whole
  consumed : u.consumed = t.consumed
  reduced : ∀ b ∈ u.reduced, b ∈ t.reduced

theorem Trail.Le.pass_right {u : Trail} (h : u.Le t) (i : BhInstruction) : u.Le (t.pass i) := by
  refine ⟨by rw [Trail.pass_bases, h.bases], by rw [Trail.pass_whole, h.whole],
    by rw [Trail.pass_consumed, h.consumed], fun b hb => ?_⟩
  unfold Trail.pass
  split
  · exact List.mem_append_right _ (h.reduced b hb)
  · exact h.reduced b hb

theorem Trail.Le.follow {u : Trail} (h : u.Le t) (hop : bhOpcodeIsReduction opcode = true)
    (hf : t.follow dead opcode out i = some t') :
    ∃ u', u.follow dead opcode out i = some u' ∧ u'.Le t' := by
  have hown : t.owns i = true → u.owns i = true := by
    intro ho
    rw [Trail.owns, List.all_eq_true] at ho ⊢
    intro v hv
    have hv' := ho v hv
    rw [Option.all_eq_true] at hv' ⊢
    intro b hb
    rw [h.bases]
    rcases Bool.or_eq_true_iff.mp (hv' b hb) with hin | hout
    · exact Bool.or_eq_true_iff.mpr (Or.inl hin)
    · refine Bool.or_eq_true_iff.mpr (Or.inr ?_)
      simp only [List.contains_eq_mem, Bool.not_eq_true', decide_eq_false_iff_not] at hout ⊢
      exact fun hmem => hout (h.reduced b hmem)
  cases Trail.follow_eq_some hf with
  | pass hu hout =>
    refine ⟨u.pass i, ?_, ?_⟩
    · have hno : ¬ (u.consumed = false ∧ usesBases out.base.toList i = true) := by
        rw [h.consumed]
        rintro ⟨hc, huse⟩
        rcases hout with hout | hout
        · rw [hc] at hout; cases hout
        · rw [huse] at hout; cases hout
      rw [Trail.follow, h.bases, hu, if_neg (by simp), if_neg hno]
    · refine ⟨by rw [Trail.pass_bases, Trail.pass_bases, h.bases],
        by rw [Trail.pass_whole, Trail.pass_whole, h.whole],
        by rw [Trail.pass_consumed, Trail.pass_consumed, h.consumed], fun b hb => ?_⟩
      unfold Trail.pass at hb ⊢
      split_ifs at hb ⊢
      · exact List.mem_append.mpr ((List.mem_append.mp hb).imp_right (h.reduced b))
      · exact h.reduced b hb
  | release hu ho => exact ⟨u, by rw [Trail.follow, h.bases, if_pos hu, if_pos ho], h⟩
  | last hu ho hown' hc hfree hw hout =>
    refine ⟨{ u with consumed := true }, ?_, ⟨h.bases, h.whole, rfl, h.reduced⟩⟩
    rw [Trail.follow, h.bases, h.whole, h.consumed, if_pos hu, if_neg (ho ▸ not_release hop),
      if_pos ⟨ho, hown hown'⟩, if_pos hc, if_pos ⟨hfree, hw, hout⟩]
  | link hu ho hown' hc hdead =>
    refine ⟨u.link i, ?_, ?_⟩
    · rw [Trail.follow, h.bases, if_pos hu, if_neg (ho ▸ not_release hop), if_pos ⟨ho, hown hown'⟩,
        if_neg (by simp [hc]), if_pos hdead]
    · refine ⟨?_, ?_, h.consumed, fun b hb => ?_⟩
      · simp only [Trail.link, h.bases]
      · simp only [Trail.link, h.whole]
      · exact List.mem_append.mpr ((List.mem_append.mp hb).imp_right (h.reduced b))

theorem Trail.follow_toNone (u : Trail) (i : BhInstruction) :
    u.follow dead opcode out i.toNone = some u := by
  rw [Trail.follow, usesBases_toNone, usesBases_toNone, if_neg (by simp), if_neg (by simp)]
  rfl

/-- Another trail goes through the struck list if it goes through the list itself. -/
theorem Trail.followAll_strike {opcode₂ : BhOpcode} {out₂ : BhView} {u t₂ t₂' : Trail}
    (hop : bhOpcodeIsReduction opcode = true) (hop₂ : bhOpcodeIsReduction opcode₂ = true)
    (hs : Apart t₂.bases t) (hu : u.Le t₂) (h : t.followAll dead opcode out l = some t')
    (h₂ : t₂.followAll dead opcode₂ out₂ l = some t₂') :
    ∃ u', u.followAll dead opcode₂ out₂ (strike opcode t.bases l) = some u' := by
  induction l generalizing t t₂ u with
  | nil => exact ⟨u, rfl⟩
  | cons i l ih =>
    obtain ⟨t₁, hstep, hrest⟩ := Trail.followAll_cons h
    rw [Trail.followAll, Option.bind_eq_some_iff] at h₂
    obtain ⟨t₃, hfollow, hrest₂⟩ := h₂
    have hstep₂ := Trail.follow_eq_some hfollow
    rw [strike_cons hop hstep]
    cases huse : usesBases t.bases i with
    | true =>
      have hnot := hs.not_uses hstep huse
      obtain rfl := hstep₂.eq_pass hnot
      rw [if_pos rfl, Trail.followAll, Trail.follow_toNone]
      refine ih ?_ (hu.pass_right i) hrest hrest₂
      rw [Trail.pass_bases]
      exact hs.strike hstep huse
    | false =>
      obtain rfl := hstep.eq_pass huse
      obtain ⟨hold, hnew⟩ := hs.pass huse
      obtain ⟨u₁, hu₁, hle⟩ := hu.follow hop₂ hfollow
      rw [if_neg (by simp), Trail.followAll, hu₁]
      refine ih ?_ hle hrest hrest₂
      cases hstep₂ with
      | pass _ _ => rw [Trail.pass_bases]; exact hold
      | release _ _ => exact hold
      | last _ _ _ _ _ _ _ => exact hold
      | link _ ho _ _ _ => exact hnew (ho ▸ hop₂)

theorem Search.next_last (s : Search) (i : BhInstruction) (n : ℕ) :
    (s.next i n).last = s.last ∨ (s.next i n).last = none ∨ (s.next i n).last = some n := by
  unfold Search.next Search.reset
  dsimp only
  split_ifs <;> simp

theorem Search.over_last {s : Search} {n k : ℕ} (h : (s.over l n).last = some k) :
    s.last = some k ∨ (n ≤ k ∧ k < n + l.length) := by
  induction l generalizing s n with
  | nil => exact Or.inl h
  | cons i l ih =>
    rw [List.length_cons]
    rcases ih h with hk | hk
    · rcases Search.next_last s i n with he | he | he
      · exact Or.inl (he ▸ hk)
      · rw [hk] at he
        cases he
      · rw [hk, Option.some.injEq] at he
        omega
    · omega

theorem getElem?_of_search {k : ℕ} (hi : l[pc]? = some i) (h : (search l pc i).last = some k) :
    ∃ z, l[k]? = some z := by
  obtain ⟨hpc, _⟩ := List.getElem?_eq_some_iff.mp hi
  rcases Search.over_last h with hk | hk
  · cases hk
  · have hlen : k < l.length := by
      rw [List.length_drop] at hk
      omega
    exact ⟨l[k], List.getElem?_eq_getElem hlen⟩

theorem getElem?_map_operand0 {l l' : List BhInstruction} {k : ℕ} {z' : BhInstruction}
    (h : l'.map BhInstruction.operand0 = l.map BhInstruction.operand0) (hz : l'[k]? = some z') :
    ∃ z, l[k]? = some z ∧ z.operand0 = z'.operand0 := by
  have hk : (l.map BhInstruction.operand0)[k]? = some z'.operand0 := by
    rw [← h, List.getElem?_map, hz]
    rfl
  rw [List.getElem?_map, Option.map_eq_some_iff] at hk
  exact hk

/-- Rewriting one chain keeps the condition for every later one. -/
theorem chainKept_strike {pre suf : List BhInstruction} {i₀ : BhInstruction} {d : ℕ}
    (hop : bhOpcodeIsReduction opcode = true) (h : t.followAll dead opcode out suf = some t')
    (h' : chainKept dead (pre ++ i :: suf) (pre.length + 1 + d) = true) :
    chainKept dead (pre ++ i₀ :: strike opcode t.bases suf) (pre.length + 1 + d) = true := by
  rw [chainKept_iff] at h' ⊢
  intro j hj hbj k z hfirst hlast hz
  have hat : ∀ (x : BhInstruction) (l : List BhInstruction) (e : ℕ),
      (pre ++ x :: l)[pre.length + 1 + e]? = l[e]? := by
    intro x l e
    rw [List.getElem?_append_right (by omega), show pre.length + 1 + e - pre.length = e + 1 by omega,
      List.getElem?_cons_succ]
  have hdrop : ∀ (x : BhInstruction) (l : List BhInstruction),
      (pre ++ x :: l).drop (pre.length + 1 + d + 1) = l.drop (d + 1) := by
    intro x l
    rw [show pre.length + 1 + d + 1 = pre.length + (d + 1 + 1) by omega, List.drop_append,
      List.drop_eq_nil_of_le (by omega), List.nil_append,
      show pre.length + (d + 1 + 1) - pre.length = d + 1 + 1 by omega, List.drop_succ_cons]
  rw [hat] at hj
  have hd : d < suf.length := by
    rw [← length_strike opcode t.bases suf]
    exact (List.getElem?_eq_some_iff.mp hj).1
  -- up to the later chain
  have hsplit : suf = suf.take d ++ suf[d] :: suf.drop (d + 1) := by
    rw [← List.drop_eq_getElem_cons hd, List.take_append_drop]
  rw [hsplit] at h
  obtain ⟨t₁, hfollow, heq⟩ := strike_append hop _ h
  obtain ⟨t₂, hstep, hrest⟩ := Trail.followAll_cons hfollow
  rw [← hsplit, strike_cons hop hstep] at heq
  have hlen : (strike opcode t.bases (suf.take d)).length = d := by
    rw [length_strike, List.length_take, Nat.min_eq_left hd.le]
  have htail : (strike opcode t.bases suf).drop (d + 1) = strike opcode t₂.bases (suf.drop (d + 1)) := by
    rw [heq, List.drop_append, List.drop_eq_nil_of_le (by omega), hlen,
      show d + 1 - d = 0 + 1 by omega, List.drop_succ_cons]
    rfl
  have hhead : j = if usesBases t₁.bases suf[d] then suf[d].toNone else suf[d] := by
    rw [heq, List.getElem?_append_right hlen.le, hlen, Nat.sub_self] at hj
    exact (Option.some.inj hj).symm
  cases huse : usesBases t₁.bases suf[d] with
  | true =>
    rw [huse, if_pos rfl] at hhead
    simp [hhead, beginsChain, BhInstruction.toNone, bhOpcodeIsReduction] at hbj
  | false =>
    rw [huse, if_neg (by simp)] at hhead
    obtain rfl := hstep.eq_pass huse
    subst hhead
    have hred := isReduction_of_beginsChain hbj
    have hapart : Apart suf[d].operand0.base.toList (t₁.pass suf[d]) := by
      have hnone : Apart [] t₁ := fun b hb => absurd hb List.not_mem_nil
      simpa using (hnone.pass huse).2 hred
    have hsearch : search (pre ++ i₀ :: strike opcode t.bases suf) (pre.length + 1 + d) suf[d] =
        search (pre ++ i :: suf) (pre.length + 1 + d) suf[d] := by
      simp only [search, hdrop, htail]
      exact Search.over_strike hop hapart (Or.inl hred) hrest _
    rw [hsearch] at hfirst hlast
    obtain ⟨z₀, hz₀, hzz⟩ : ∃ z₀, (pre ++ i :: suf)[k]? = some z₀ ∧ z₀.operand0 = z.operand0 := by
      rcases Search.over_last hlast with hk | ⟨hk, _⟩
      · cases hk
      · obtain ⟨e, rfl⟩ : ∃ e, k = pre.length + 1 + e := ⟨k - (pre.length + 1), by omega⟩
        rw [hat] at hz ⊢
        exact getElem?_map_operand0 (strike_operand0 opcode t.bases suf) hz
    obtain ⟨hdead, t₃, ht₃⟩ := h' suf[d] (by rw [hat]; exact List.getElem?_eq_getElem hd) hbj k z₀
      hfirst hlast hz₀
    refine ⟨hdead, ?_⟩
    rw [hdrop, hzz] at ht₃
    rw [hdrop, htail]
    exact Trail.followAll_strike hop hred hapart ⟨rfl, rfl, rfl, fun b hb => hb⟩ hrest ht₃

/-- Under the condition, one turn of the loop does nothing or strikes a chain. -/
theorem filterAt_cases (h : chainKept dead l pc = true) : filterAt l pc = l ∨
    ∃ pre i suf out t, l = pre ++ i :: suf ∧ pc = pre.length ∧ beginsChain i = true ∧
      i.operand0.base.all dead.contains = true ∧ t.consumed = true ∧
      (Trail.start i).followAll dead i.opcode out suf = some t ∧
      filterAt l pc = pre ++ { i with operand0 := out } :: strike i.opcode i.operand0.base.toList suf := by
  cases hi : l[pc]? with
  | none => exact Or.inl (by simp [filterAt, hi])
  | some i =>
    by_cases hbegin : beginsChain i = true
    case neg => exact Or.inl (by simp [filterAt, hi, hbegin])
    cases hf : (search l pc i).first with
    | none => exact Or.inl (by simp [filterAt, hi, hbegin, hf])
    | some f =>
      cases hlast : (search l pc i).last with
      | none => exact Or.inl (by simp [filterAt, hi, hbegin, hf, hlast])
      | some k =>
        obtain ⟨z, hz⟩ := getElem?_of_search hi hlast
        obtain ⟨hdead, t, ht⟩ := chainKept_iff.mp h i hi hbegin k z (by simp [hf]) hlast hz
        obtain ⟨hpc, hget⟩ := List.getElem?_eq_some_iff.mp hi
        obtain ⟨_, hsome, _⟩ := (tracks_start i pc).over (isReduction_of_beginsChain hbegin)
          (Trail.valid_start hbegin) (n := pc + 1) (by simp [Search.marks, Search.start]) ht
        refine Or.inr ⟨l.take pc, i, l.drop (pc + 1), z.operand0, t, ?_, ?_, hbegin, hdead, ?_, ht,
          filterAt_eq hi hbegin hlast hz ht⟩
        · rw [← hget, ← List.drop_eq_getElem_cons hpc, List.take_append_drop]
        · rw [List.length_take, Nat.min_eq_left hpc.le]
        · rw [← hsome, ← search, hlast]
          rfl

theorem chainKept_filterAt {pc' : ℕ} (hlt : pc < pc') (h : chainKept dead l pc = true)
    (h' : chainKept dead l pc' = true) : chainKept dead (filterAt l pc) pc' = true := by
  rcases filterAt_cases h with he | ⟨pre, i, suf, out, t, rfl, rfl, hbegin, _, _, ht, he⟩
  · rw [he]
    exact h'
  · rw [he]
    obtain ⟨d, rfl⟩ : ∃ d, pc' = pre.length + 1 + d := ⟨pc' - (pre.length + 1), by omega⟩
    exact chainKept_strike (isReduction_of_beginsChain hbegin) ht h'

theorem length_filterAt (h : chainKept dead l pc = true) : (filterAt l pc).length = l.length := by
  rcases filterAt_cases h with he | ⟨pre, i, suf, out, t, rfl, rfl, hbegin, _, _, ht, he⟩
  · rw [he]
  · rw [he]
    simp [length_strike]

end Filter
end Bohrium.Bccon
