import Bohrium.Semantics.Whole

/-! # The reduction-chain filter

`filter/bccon/filter.cpp`: a chain of reductions that ends in a one-element array is replaced by one
complete reduction. The search looks at the rest of the program from each reduction on, and the
rewrite turns what it found into `BH_NONE`. Pointers into the instruction list are indices here. -/
namespace Bohrium
open Strided
set_option autoImplicit false

namespace BhInstruction

/-- A reduction along one axis into an array of its own: each output element has one location and at
least one input element. -/
def Fits (i : BhInstruction) : Prop :=
  i.WellFormed ∧ i.operand1.shape.getD i.axis 0 ≠ 0 ∧ i.operand0.base.isSome ∧ i.operand0.Injective

instance (i : BhInstruction) : Decidable i.Fits :=
  inferInstanceAs (Decidable (_ ∧ _ ∧ _ ∧ _))

end BhInstruction

namespace Bccon

/-! ## The search -/

/-- The local variables of `filter` during one search. -/
structure Search where
  reduceOpcode : BhOpcode
  first : Option ℕ
  last : Option ℕ
  links : List ℕ
  bases : List BhBase
  deriving DecidableEq, Repr

/-- `other_use`: some operand that is no constant lies in one of the bases. -/
def usesBases (bases : List BhBase) (i : BhInstruction) : Bool :=
  i.operands.any fun v => v.base.any bases.contains

def Search.reset : Search := ⟨.none, none, none, [], []⟩

/-- The body of the inner loop: one instruction behind the first reduction. -/
def Search.next (s : Search) (i : BhInstruction) (pcChain : ℕ) : Search :=
  if !usesBases s.bases i then s
  else
    let isContinuation := i.opcode == .free || i.opcode == .discard || i.opcode == s.reduceOpcode
    -- the chain is broken, but the instruction that breaks it is still recorded below
    let s := if isContinuation then s else .reset
    if i.isComplete then { s with last := some pcChain }
    else { s with
      links := s.links ++ [pcChain]
      bases := if i.opcode == s.reduceOpcode then i.operand0.base.toList ++ s.bases else s.bases }

def Search.over (s : Search) (l : List BhInstruction) (pc : ℕ) : Search :=
  (l.zipIdx pc).foldl (fun s p => s.next p.1 p.2) s

def Search.start (i : BhInstruction) (pc : ℕ) : Search :=
  ⟨i.opcode, some pc, none, [], i.operand0.base.toList⟩

/-- The state after the inner loop. -/
def search (l : List BhInstruction) (pc : ℕ) (i : BhInstruction) : Search :=
  (Search.start i pc).over (l.drop (pc + 1)) (pc + 1)

/-! ## The rewrite -/

/-- `rewrite_chain`. -/
def rewriteChain (l : List BhInstruction) (links : List ℕ) (first last : ℕ) : List BhInstruction :=
  let l := l.modify first fun i => { i with operand0 := (l[last]?.getD i).operand0 }
  let l := l.modify last BhInstruction.toNone
  links.foldl (fun l k => l.modify k BhInstruction.toNone) l

/-- A reduction that may be the first one of a chain. -/
def beginsChain (i : BhInstruction) : Bool :=
  bhOpcodeIsReduction i.opcode && i.operand0.base.any fun b => decide (1 < b.nelem)

/-- The body of the outer loop. Each search starts from reset variables. -/
def filterAt (l : List BhInstruction) (pc : ℕ) : List BhInstruction :=
  match l[pc]? with
  | none => l
  | some i =>
    if beginsChain i then
      let s := search l pc i
      match s.first, s.last with
      | some first, some last => rewriteChain l s.links first last
      | _, _ => l
    else l

/-- `filter`. -/
def filter (l : List BhInstruction) : List BhInstruction := (List.range l.length).foldl filterAt l

/-- The bases a list frees or discards. -/
def released (l : List BhInstruction) : List BhBase :=
  (l.filter fun i => i.opcode == .free || i.opcode == .discard).flatMap fun i => i.operand0.base.toList

/-! ## Chains that may be rewritten

The search collects every instruction that touches an intermediate; it asks neither what a reduction
reads of an intermediate nor who else wants it. A trail keeps what a rewrite has to know. -/

structure Trail where
  /-- The intermediates. -/
  bases : List BhBase
  /-- The output bases of all reductions since the chain began. -/
  reduced : List BhBase
  /-- Views of intermediates that reduce to the same value as the first input. -/
  whole : List BhView
  /-- The one-element result has been written. -/
  consumed : Bool
  deriving DecidableEq, Repr

namespace Trail

def start (i : BhInstruction) : Trail :=
  ⟨i.operand0.base.toList, i.operand0.base.toList, if i.Fits then [i.operand0] else [], false⟩

/-- An operand in the base is a part of this chain or of none. -/
def owns (t : Trail) (i : BhInstruction) : Bool :=
  i.operands.all fun v => v.base.all fun b => t.bases.contains b || !t.reduced.contains b

/-- A further reduction into an intermediate. -/
def link (t : Trail) (i : BhInstruction) : Trail where
  bases := i.operand0.base.toList ++ t.bases
  reduced := i.operand0.base.toList ++ t.reduced
  whole :=
    (if i.operand1 ∈ t.whole ∧ i.Fits then [i.operand0] else []) ++
      t.whole.filter fun v => v.base != i.operand0.base
  consumed := t.consumed

/-- An instruction that touches no intermediate. -/
def pass (t : Trail) (i : BhInstruction) : Trail :=
  if bhOpcodeIsReduction i.opcode then { t with reduced := i.operand0.base.toList ++ t.reduced } else t

/-- The trail behind an instruction, `none` where a rewrite would lose something: an intermediate
outside `dead`, a second consumer, a consumer of a part, a use of the result before it is there. -/
def follow (dead : List BhBase) (opcode : BhOpcode) (out : BhView) (t : Trail) (i : BhInstruction) :
    Option Trail :=
  if usesBases t.bases i then
    if i.opcode = .free ∨ i.opcode = .discard then some t
    else if i.opcode = opcode ∧ t.owns i then
      if i.isComplete then
        if t.consumed = false ∧ i.operand1 ∈ t.whole ∧ i.operand0 = out then
          some { t with consumed := true }
        else none
      else if i.operand0.base.all dead.contains then some (t.link i) else none
    else none
  else if t.consumed = false ∧ usesBases out.base.toList i then none
  else some (t.pass i)

/-- The trail behind a list. -/
def followAll (dead : List BhBase) (opcode : BhOpcode) (out : BhView) :
    Trail → List BhInstruction → Option Trail
  | t, [] => some t
  | t, i :: l => (t.follow dead opcode out i).bind fun t' => followAll dead opcode out t' l

end Trail

/-- The reduction into one element that ends a chain with the given intermediates, `z` if there is none in the list. To the
end of the list, everything that touches an intermediate is to release it or to reduce further; else there is no chain. -/
def chainEnd (opcode : BhOpcode) : List BhBase → Option BhInstruction → List BhInstruction → Option BhInstruction
  | _, z, [] => z
  | bases, z, i :: l =>
    if usesBases bases i = false then chainEnd opcode bases z l
    else if i.opcode ≠ .free ∧ i.opcode ≠ .discard ∧ i.opcode ≠ opcode then none
    else if i.isComplete then chainEnd opcode bases (some i) l
    else chainEnd opcode (if i.opcode = opcode then i.operand0.base.toList ++ bases else bases) z l

/-- If a chain begins at `pc` and has an end, its intermediates are dead and its trail goes through to the end of the
list. -/
def chainKept (dead : List BhBase) (l : List BhInstruction) (pc : ℕ) : Bool :=
  match l[pc]? with
  | none => true
  | some i => !beginsChain i || (chainEnd i.opcode i.operand0.base.toList none (l.drop (pc + 1))).all fun z =>
      i.operand0.base.all dead.contains &&
        ((Trail.start i).followAll dead i.opcode z.operand0 (l.drop (pc + 1))).isSome

/-! ## What a search finds -/

theorem usesBases_iff {bases : List BhBase} {i : BhInstruction} :
    usesBases bases i = true ↔ ∃ v ∈ i.operands, ∃ b ∈ bases, v.base = some b := by
  simp only [usesBases, List.any_eq_true, Option.any_eq_true, List.contains_iff_mem]
  refine exists_congr fun v => and_congr_right fun _ => exists_congr fun b => ?_
  exact and_comm

theorem usesBases_toNone (bases : List BhBase) (i : BhInstruction) : usesBases bases i.toNone = false := rfl

theorem usesBases_eq_false {bases : List BhBase} {i : BhInstruction} (h : usesBases bases i = false)
    {v : BhView} (hv : v ∈ i.operands) {b : BhBase} (hb : v.base = some b) : b ∉ bases := by
  intro hmem
  have huse : usesBases bases i = true := usesBases_iff.mpr ⟨v, hv, b, hmem, hb⟩
  rw [h] at huse
  cases huse

/-- What a trail may do at one instruction. -/
inductive Trail.Step (dead : List BhBase) (opcode : BhOpcode) (out : BhView) (t : Trail)
    (i : BhInstruction) : Trail → Prop
  | pass (hu : usesBases t.bases i = false)
      (hout : t.consumed = true ∨ usesBases out.base.toList i = false) : Step dead opcode out t i (t.pass i)
  | release (hu : usesBases t.bases i = true) (ho : i.opcode = .free ∨ i.opcode = .discard) :
      Step dead opcode out t i t
  | last (hu : usesBases t.bases i = true) (ho : i.opcode = opcode) (hown : t.owns i = true)
      (hc : i.isComplete = true) (hfree : t.consumed = false) (hw : i.operand1 ∈ t.whole)
      (hout : i.operand0 = out) : Step dead opcode out t i { t with consumed := true }
  | link (hu : usesBases t.bases i = true) (ho : i.opcode = opcode) (hown : t.owns i = true)
      (hc : i.isComplete = false) (hdead : i.operand0.base.all dead.contains = true) :
      Step dead opcode out t i (t.link i)

theorem not_release {opcode : BhOpcode} (hop : bhOpcodeIsReduction opcode = true) :
    ¬ (opcode = .free ∨ opcode = .discard) := by
  rintro (rfl | rfl) <;> simp [bhOpcodeIsReduction] at hop

section Trail
variable {dead : List BhBase} {opcode : BhOpcode} {out : BhView} {t t' : Trail} {i : BhInstruction}
  {l : List BhInstruction}

theorem Trail.follow_eq_some (h : t.follow dead opcode out i = some t') :
    t.Step dead opcode out i t' := by
  unfold Trail.follow at h
  split_ifs at h with hu hrel ho hc hlast hd hout
  · cases h
    exact .release hu hrel
  · cases h
    exact .last hu ho.1 ho.2 hc hlast.1 hlast.2.1 hlast.2.2
  · cases h
    exact .link hu ho.1 ho.2 (by simpa using hc) hd
  · cases h
    refine .pass (by simpa using hu) ?_
    rw [not_and_or] at hout
    simpa using hout

theorem Trail.Step.eq_pass (h : t.Step dead opcode out i t') (hu : usesBases t.bases i = false) :
    t' = t.pass i := by
  cases h with
  | pass _ _ => rfl
  | release hu' _ => rw [hu] at hu'; cases hu'
  | last hu' _ _ _ _ _ _ => rw [hu] at hu'; cases hu'
  | link hu' _ _ _ _ => rw [hu] at hu'; cases hu'

theorem Trail.followAll_cons (h : t.followAll dead opcode out (i :: l) = some t') :
    ∃ t₁, t.Step dead opcode out i t₁ ∧ t₁.followAll dead opcode out l = some t' := by
  rw [Trail.followAll, Option.bind_eq_some_iff] at h
  obtain ⟨t₁, h₁, h₂⟩ := h
  exact ⟨t₁, Trail.follow_eq_some h₁, h₂⟩

theorem Trail.pass_bases (t : Trail) (i : BhInstruction) : (t.pass i).bases = t.bases := by
  unfold Trail.pass
  split <;> rfl

theorem Trail.pass_whole (t : Trail) (i : BhInstruction) : (t.pass i).whole = t.whole := by
  unfold Trail.pass
  split <;> rfl

theorem Trail.pass_consumed (t : Trail) (i : BhInstruction) : (t.pass i).consumed = t.consumed := by
  unfold Trail.pass
  split <;> rfl

/-- The intermediates have more or fewer elements than one, and the whole views lie in them. -/
structure Trail.Valid (t : Trail) : Prop where
  nelem : ∀ b ∈ t.bases, b.nelem ≠ 1
  whole : ∀ v ∈ t.whole, ∃ b ∈ t.bases, v.base = some b

theorem Trail.Valid.step (ht : t.Valid) (h : t.Step dead opcode out i t') : t'.Valid := by
  cases h with
  | pass hu hout =>
    refine ⟨?_, ?_⟩
    · rw [Trail.pass_bases]
      exact ht.nelem
    · rw [Trail.pass_bases, Trail.pass_whole]
      exact ht.whole
  | release hu ho => exact ht
  | last hu ho hown hc hfree hw hout => exact ⟨ht.nelem, ht.whole⟩
  | link hu ho hown hc hdead =>
    refine ⟨fun b hb => ?_, fun v hv => ?_⟩
    · rcases List.mem_append.mp hb with hb | hb
      · rw [Option.mem_toList] at hb
        intro hn
        simp [BhInstruction.isComplete, hb, hn] at hc
      · exact ht.nelem b hb
    · rcases List.mem_append.mp hv with hv | hv
      · split_ifs at hv with hfit
        · rw [List.mem_singleton.mp hv]
          obtain ⟨b, hb⟩ := Option.isSome_iff_exists.mp hfit.2.2.2.1
          exact ⟨b, by simp [Trail.link, hb], hb⟩
        · cases hv
      · obtain ⟨b, hb, hvb⟩ := ht.whole v (List.mem_filter.mp hv).1
        exact ⟨b, List.mem_append_right _ hb, hvb⟩

theorem Trail.valid_start (h : beginsChain i = true) : (Trail.start i).Valid := by
  obtain ⟨b, hb, hn⟩ : ∃ b, i.operand0.base = some b ∧ 1 < b.nelem := by
    simpa [beginsChain, Option.any_eq_true] using (Bool.and_eq_true_iff.mp h).2
  refine ⟨fun c hc => ?_, fun v hv => ?_⟩
  · have he : c = b := by simpa [Trail.start, hb] using hc
    rw [he]
    omega
  · refine ⟨b, by simp [Trail.start, hb], ?_⟩
    have he : v = i.operand0 := by
      unfold Trail.start at hv
      split_ifs at hv with hfit
      · exact List.mem_singleton.mp hv
      · cases hv
    rw [he, hb]

/-- The list with every instruction that touches an intermediate taken out. -/
def strike (opcode : BhOpcode) : List BhBase → List BhInstruction → List BhInstruction
  | _, [] => []
  | bases, i :: l =>
    if usesBases bases i then
      i.toNone :: strike opcode
        (if i.opcode = opcode ∧ i.isComplete = false then i.operand0.base.toList ++ bases else bases) l
    else i :: strike opcode bases l

/-- A released base is not one of a single element, so the search takes the instruction for a link. -/
theorem Trail.Valid.not_isComplete (ht : t.Valid) (hu : usesBases t.bases i = true)
    (ho : i.opcode = .free ∨ i.opcode = .discard) : i.isComplete = false := by
  obtain ⟨v, hv, b, hb, hvb⟩ := usesBases_iff.mp hu
  have he : v = i.operand0 := by
    rcases ho with ho | ho <;> simpa [BhInstruction.operands, ho, bhOperands] using hv
  rw [he] at hvb
  simpa [BhInstruction.isComplete, hvb] using ht.nelem b hb

theorem strike_cons (hop : bhOpcodeIsReduction opcode = true) (h : t.Step dead opcode out i t') :
    strike opcode t.bases (i :: l) =
      (if usesBases t.bases i then i.toNone else i) :: strike opcode t'.bases l := by
  cases h with
  | pass hu hout => rw [strike, if_neg (by simp [hu]), if_neg (by simp [hu]), Trail.pass_bases]
  | release hu ho =>
    have hne : i.opcode ≠ opcode := fun he => not_release hop (he ▸ ho)
    rw [strike, if_pos hu, if_pos hu, if_neg (fun h => hne h.1)]
  | last hu ho hown hc hfree hw hout =>
    rw [strike, if_pos hu, if_pos hu, if_neg (by simp [hc])]
  | link hu ho hown hc hdead => rw [strike, if_pos hu, if_pos hu, if_pos ⟨ho, hc⟩, Trail.link]

/-! ## The search follows the trail -/

/-- The instruction is to be taken out. -/
def Search.marks (s : Search) (k : ℕ) : Bool := s.links.contains k || s.last == some k

structure Search.Tracks (s : Search) (opcode : BhOpcode) (pc : ℕ) (t : Trail) : Prop where
  reduceOpcode : s.reduceOpcode = opcode
  first : s.first = some pc
  bases : s.bases = t.bases
  last : s.last.isSome = t.consumed

variable {s : Search} {pc k : ℕ}

theorem Search.next_of_not_uses (h : usesBases s.bases i = false) (k : ℕ) : s.next i k = s := by
  simp [Search.next, h]

theorem Search.Tracks.next (hs : s.Tracks opcode pc t) (hop : bhOpcodeIsReduction opcode = true)
    (ht : t.Valid) (h : t.Step dead opcode out i t') (k : ℕ) :
    (s.next i k).Tracks opcode pc t' ∧
      ∀ j, (s.next i k).marks j = (s.marks j || (usesBases t.bases i && j == k)) := by
  obtain ⟨hro, hfirst, hbases, hlast⟩ := hs
  cases h with
  | pass hu hout =>
    rw [Search.next_of_not_uses (by rw [hbases, hu])]
    refine ⟨⟨hro, hfirst, ?_, ?_⟩, fun j => by simp [hu]⟩
    · rw [hbases, Trail.pass_bases]
    · rw [hlast, Trail.pass_consumed]
  | release hu ho =>
    have hc := ht.not_isComplete hu ho
    have hne : i.opcode ≠ opcode := fun he => not_release hop (he ▸ ho)
    have hnext : s.next i k = { s with links := s.links ++ [k] } := by
      simp [Search.next, hbases, hu, hc, ho, hro, hne]
    rw [hnext]
    refine ⟨⟨hro, hfirst, hbases, hlast⟩, fun j => ?_⟩
    simp only [Search.marks, hu, List.contains_eq_mem, List.mem_append, List.mem_singleton]
    grind
  | last hu ho hown hc hfree hw hout =>
    have hnext : s.next i k = { s with last := some k } := by
      simp [Search.next, hbases, hu, hc, hro, ho]
    rw [hnext]
    refine ⟨⟨hro, hfirst, hbases, rfl⟩, fun j => ?_⟩
    have hnone : s.last = none := by simpa [hfree] using hlast
    simp only [Search.marks, hu, hnone]
    grind
  | link hu ho hown hc hdead =>
    have hnext : s.next i k =
        { s with links := s.links ++ [k], bases := i.operand0.base.toList ++ s.bases } := by
      simp [Search.next, hbases, hu, hc, hro, ho]
    rw [hnext]
    refine ⟨⟨hro, hfirst, by rw [hbases]; rfl, hlast⟩, fun j => ?_⟩
    simp only [Search.marks, hu, List.contains_eq_mem, List.mem_append, List.mem_singleton]
    grind

theorem Search.over_cons (s : Search) (i : BhInstruction) (l : List BhInstruction) (n : ℕ) :
    s.over (i :: l) n = (s.next i n).over l (n + 1) := rfl

/-- A search that stays on a trail takes out exactly the instructions that touch an intermediate. -/
theorem Search.Tracks.over {n : ℕ} (hs : s.Tracks opcode pc t)
    (hop : bhOpcodeIsReduction opcode = true) (ht : t.Valid) (hlt : ∀ k, s.marks k = true → k < n)
    (h : t.followAll dead opcode out l = some t') :
    (s.over l n).first = some pc ∧ (s.over l n).last.isSome = t'.consumed ∧
      (∀ k < n, (s.over l n).marks k = s.marks k) ∧ ∀ j, (strike opcode t.bases l)[j]? =
        l[j]?.map fun i => if (s.over l n).marks (n + j) then i.toNone else i := by
  induction l generalizing s t n with
  | nil =>
    obtain rfl := Option.some.inj h
    exact ⟨hs.first, hs.last, fun k _ => rfl, fun j => rfl⟩
  | cons i l ih =>
    obtain ⟨t₁, hstep, hrest⟩ := Trail.followAll_cons h
    obtain ⟨hs₁, hmarks⟩ := hs.next hop ht hstep n
    have hlt₁ : ∀ k, (s.next i n).marks k = true → k < n + 1 := by
      intro k hk
      rw [hmarks, Bool.or_eq_true, Bool.and_eq_true, beq_iff_eq] at hk
      rcases hk with hk | ⟨_, rfl⟩
      · exact Nat.lt_succ_of_lt (hlt k hk)
      · exact Nat.lt_succ_self _
    obtain ⟨hfirst, hlast, hbelow, hget⟩ := ih hs₁ (ht.step hstep) hlt₁ hrest
    have hn : s.marks n = false := by
      by_contra hm
      exact absurd (hlt n (by simpa using hm)) (Nat.lt_irrefl n)
    rw [Search.over_cons]
    refine ⟨hfirst, hlast, fun k hk => ?_, fun j => ?_⟩
    · rw [hbelow k (Nat.lt_succ_of_lt hk), hmarks]
      simp [Nat.ne_of_lt hk]
    · rw [strike_cons hop hstep]
      cases j with
      | zero =>
        have hmark : ((s.next i n).over l (n + 1)).marks n = usesBases t.bases i := by
          rw [hbelow n (Nat.lt_succ_self n), hmarks, hn]
          simp
        show some _ = some (if ((s.next i n).over l (n + 1)).marks n then i.toNone else i)
        rw [hmark]
      | succ j =>
        rw [List.getElem?_cons_succ, List.getElem?_cons_succ, hget j, Nat.add_right_comm n 1 j, Nat.add_assoc]

end Trail
end Bccon
end Bohrium
