import Bohrium.Filter.BcconRewrite
import Bohrium.Library.Fold

/-! # The reduction-chain filter keeps the meaning of proper chains

Reducing an array along one axis does not change what all of it combines to. So while a trail goes
on, its whole views all combine to the value of the first input, and a list with the chain struck
differs from the list itself in the intermediates and, until it is written, in the result. -/
namespace Bohrium
open Strided Reorder
set_option autoImplicit false

/-- The operator of a reduction is exact: associative, commutative, and the same for every element
type. -/
structure Interp.Exact {V : Type} (I : Interp V) (opcode : BhOpcode) : Prop where
  comm : ∀ x y, I.sweep opcode none x y = I.sweep opcode none y x
  assoc : ∀ x y z, I.sweep opcode none (I.sweep opcode none x y) z =
    I.sweep opcode none x (I.sweep opcode none y z)
  typeFree : ∀ type, I.sweep opcode type = I.sweep opcode none

/-! ## What a reduction keeps -/

/-- The first index along the axis. -/
theorem insertIdx_mem_indices {axis : ℕ} {shape o : List ℕ} (haxis : axis < shape.length) (hpos : 1 ≤ shape.getD axis 0)
    (ho : o ∈ indices (shape.eraseIdx axis)) : o.insertIdx axis 0 ∈ indices shape := by
  rw [mem_indices] at ho ⊢
  induction shape generalizing axis o with
  | nil => simp at haxis
  | cons n ns ih =>
    cases axis with
    | zero => exact List.Forall₂.cons (Nat.pos_of_ne_zero (Nat.one_le_iff_ne_zero.mp hpos)) ho
    | succ axis =>
      rw [List.eraseIdx_cons_succ] at ho
      cases ho with
      | cons h0 hrest => exact List.Forall₂.cons h0 (ih (by simpa using haxis) (by simpa using hpos) hrest)

/-- Every index of the reduced shape has an index that is reduced to it. -/
theorem exists_reduceIndex {axis : ℕ} {shape o : List ℕ} (haxis : axis < shape.length)
    (hne : shape.getD axis 0 ≠ 0) (ho : o ∈ indices (reduceShape axis shape)) :
    ∃ idx ∈ indices shape, reduceIndex axis idx = o := by
  by_cases hlen : shape.length = 1
  · obtain ⟨n, rfl⟩ := List.length_eq_one_iff.mp hlen
    obtain rfl : axis = 0 := by simpa using haxis
    refine ⟨[0], ?_, ?_⟩
    · rw [mem_indices]
      exact List.Forall₂.cons (Nat.pos_of_ne_zero (by simpa using hne)) List.Forall₂.nil
    · rw [reduceShape, if_pos hlen, mem_indices] at ho
      cases ho with
      | cons h0 hnil =>
        cases hnil
        rw [Nat.lt_one_iff.mp h0]
        rfl
  · rw [reduceShape, if_neg hlen] at ho
    have hins := insertIdx_mem_indices haxis (Nat.pos_of_ne_zero hne) ho
    have hlen' := (mem_indices.mp hins).length_eq
    refine ⟨o.insertIdx axis 0, hins, ?_⟩
    rw [reduceIndex, hlen', if_neg hlen, List.eraseIdx_insertIdx_self]

theorem kind_of_isReduction {i : BhInstruction} (h : bhOpcodeIsReduction i.opcode = true) :
    i.kind = .reduction := by
  revert h
  unfold BhInstruction.kind
  cases i.opcode with
  | ext id => intro h; cases h
  | _ => decide

section Reduction
variable {V : Type} {I : Interp V} {i : BhInstruction} {opcode : BhOpcode}

theorem reduce_eq_total (hI : I.Exact opcode) (type : Option BhType) (xs : List V) :
    I.reduce opcode type xs = (Fold.total (I.sweep opcode none) xs).getD (I.neutral opcode) := by
  have : Std.Associative (I.sweep opcode none) := ⟨hI.assoc⟩
  cases xs with
  | nil => rfl
  | cons x xs => rw [Fold.total_eq_foldl, Interp.reduce, hI.typeFree type]; rfl

theorem contents_congr {c c' : BhConstant} {v : BhView} {b : BhBase} (hb : v.base = some b) {m m' : Mem V}
    (h : ∀ o, m (b, o) = m' (b, o)) : contents I c v m = contents I c' v m' := by
  refine List.map_congr_left fun idx _ => ?_
  simp [load, hb, h]

/-- A reduction along one axis leaves an array with the total of its input. -/
theorem total_reduction (hI : I.Exact i.opcode) (hop : bhOpcodeIsReduction i.opcode = true)
    (hfits : i.Fits) (hc : i.isComplete = false) (c : BhConstant) (m : Mem V) :
    Fold.total (I.sweep i.opcode none) (contents I c i.operand0 (runWhole I i m)) =
      Fold.total (I.sweep i.opcode none) (contents I i.constant i.operand1 m) := by
  have : Std.Associative (I.sweep i.opcode none) := ⟨hI.assoc⟩
  have : Std.Commutative (I.sweep i.opcode none) := ⟨hI.comm⟩
  have hk := kind_of_isReduction hop
  obtain ⟨hwf, hne, hsome, hinj⟩ := hfits
  obtain ⟨b, hb⟩ := Option.isSome_iff_exists.mp hsome
  obtain ⟨haxis, hshape⟩ : i.axis < i.operand1.ndim ∧
      i.operand0.shape = reduceShape i.axis i.operand1.shape := by
    simpa [BhInstruction.WellFormed, hk] using hwf
  have haxis : i.axis < i.operand1.shape.length := by simpa [BhView.shape, BhView.ndim] using haxis
  let result (o : List ℕ) : V :=
    I.reduce i.opcode i.outType ((i.fibre o).map fun idx => load I i.constant i.operand1 idx m)
  have hcontents : contents I c i.operand0 (runWhole I i m) = (indices i.operand0.shape).map result := by
    refine List.map_congr_left fun o ho => ?_
    simp only [load, hb, runWhole, wholeStores, hk]
    rw [applyStores_storesTo hb, hinj.lastAt_offset ho]
    rfl
  have hfibre : ∀ o, i.fibre o =
      (indices i.operand1.shape).filter fun idx => decide (reduceIndex i.axis idx = o) := by
    intro o
    refine List.filter_congr fun idx _ => ?_
    rw [hc, Bool.false_or, Bool.eq_iff_iff, beq_iff_eq, decide_eq_true_iff]
  rw [hcontents]
  refine Fold.total_fibres _ (reduceIndex i.axis) _ result (nodup_indices _) _ (fun idx hidx => ?_)
    fun o ho => ?_
  · rw [hshape]
    exact reduceIndex_mem hidx
  · rw [hshape] at ho
    obtain ⟨idx, hidx, he⟩ := exists_reduceIndex haxis hne ho
    have hmem : idx ∈ i.fibre o := by
      rw [hfibre, List.mem_filter]
      exact ⟨hidx, by simpa using he⟩
    have hres : result o = _ := reduce_eq_total hI i.outType _
    rw [hres, ← hfibre]
    obtain ⟨idx', rest, hcons⟩ := List.exists_cons_of_ne_nil (List.ne_nil_of_mem hmem)
    rw [hcons, List.map_cons, Fold.total_eq_foldl]
    rfl

/-- A complete reduction stores the total of its input at every index of the output. -/
theorem runWhole_complete (hI : I.Exact i.opcode) (hop : bhOpcodeIsReduction i.opcode = true)
    (hc : i.isComplete = true) (m : Mem V) :
    runWhole I i m = applyStores (storesTo i.operand0 fun _ =>
      (Fold.total (I.sweep i.opcode none) (contents I i.constant i.operand1 m)).getD (I.neutral i.opcode)) m := by
  have hfibre : ∀ o, i.fibre o = indices i.operand1.shape := by
    intro o
    simp [BhInstruction.fibre, hc]
  simp only [runWhole, wholeStores, kind_of_isReduction hop, hfibre, reduce_eq_total hI]
  rfl

end Reduction

namespace Bccon

/-! ## The struck list -/

section Simulation
variable {V : Type} {I : Interp V} {opcode : BhOpcode} {out : BhView} {tot : Option V} {dead : List BhBase}
  {t t' : Trail} {i : BhInstruction} {l : List BhInstruction} {m m' : Mem V}

/-- The result of the chain, written into a memory. -/
def fill (I : Interp V) (opcode : BhOpcode) (out : BhView) (tot : Option V) (m : Mem V) : Mem V :=
  applyStores (storesTo out fun _ => tot.getD (I.neutral opcode)) m

theorem fill_footprint : Footprint (fill I opcode out tot) {l | out.base = some l.1} {l | out.base = some l.1} := by
  refine ⟨fun m l hl => applyStores_storesTo_of_base_ne _ m hl, fun m m' hm l hl => ?_⟩
  obtain ⟨b, o⟩ := l
  rw [fill, fill, applyStores_storesTo hl, applyStores_storesTo hl, hm _ hl]

theorem fill_runWhole {l : Loc} (hw : i.operand0.base ≠ some l.1) :
    fill I opcode out tot (runWhole I i m) l = fill I opcode out tot m l := by
  by_cases hob : out.base = some l.1
  · refine fill_footprint.reads _ _ (fun k hk => runWhole_of_base_ne I (fun he => ?_) m) l hob
    rw [show out.base = some k.1 from hk] at hob
    exact hw (Option.some.inj hob ▸ he)
  · rw [fill_footprint.frame _ _ hob, fill_footprint.frame _ _ hob, runWhole_of_base_ne I hw m]

/-- The memories of a list (`m`) and of the struck list (`m'`): they agree outside the intermediates,
but the struck list has the result from the beginning. -/
structure Agree (I : Interp V) (opcode : BhOpcode) (out : BhView) (tot : Option V) (t : Trail)
    (m m' : Mem V) : Prop where
  off : ∀ l : Loc, l.1 ∉ t.bases → m' l = (if t.consumed then m else fill I opcode out tot m) l
  whole : ∀ v ∈ t.whole, ∀ c, Fold.total (I.sweep opcode none) (contents I c v m) = tot

theorem onBases_of_not_uses {bases : List BhBase} (hu : usesBases bases i = false) {l : Loc}
    (hl : l ∈ i.onBases) : l.1 ∉ bases := by
  obtain ⟨v, hv, hb⟩ := hl
  exact usesBases_eq_false hu hv hb

theorem runWhole_toNone (i : BhInstruction) (m : Mem V) : runWhole I i.toNone m = m :=
  runWhole_system I rfl m

theorem Agree.pass (h : Agree I opcode out tot t m m') (ht : t.Valid)
    (hu : usesBases t.bases i = false) (hout : t.consumed = true ∨ usesBases out.base.toList i = false) :
    Agree I opcode out tot (t.pass i) (runWhole I i m) (runWhole I i m') := by
  have hfp := runWhole_footprint I i
  have hkeep : ∀ m₁ m₂ : Mem V, (∀ l : Loc, l.1 ∉ t.bases → m₁ l = m₂ l) →
      ∀ l : Loc, l.1 ∉ t.bases → runWhole I i m₁ l = runWhole I i m₂ l := by
    intro m₁ m₂ heq l hl
    by_cases hmem : l ∈ i.onBases
    · exact hfp.reads m₁ m₂ (fun k hk => heq k (onBases_of_not_uses hu hk)) l hmem
    · rw [hfp.frame m₁ l hmem, hfp.frame m₂ l hmem, heq l hl]
  refine ⟨fun l hl => ?_, fun v hv c => ?_⟩
  · rw [Trail.pass_bases] at hl
    rw [Trail.pass_consumed]
    cases hcons : t.consumed with
    | true =>
      rw [if_pos rfl]
      exact hkeep m' m (fun k hk => by rw [h.off k hk, hcons, if_pos rfl]) l hl
    | false =>
      rw [if_neg (by simp), hkeep m' (fill I opcode out tot m)
        (fun k hk => by rw [h.off k hk, hcons, if_neg (by simp)]) l hl]
      have hout' := hout.resolve_left (by simp [hcons])
      have hdis : Disjoint i.onBases {l : Loc | out.base = some l.1} := by
        rw [Set.disjoint_left]
        intro k hk hko
        exact onBases_of_not_uses hout' hk (by simp [show out.base = some k.1 from hko])
      exact congrFun (hfp.comm fill_footprint hdis hdis hdis m).symm l
  · rw [Trail.pass_whole] at hv
    obtain ⟨b, hb, hvb⟩ := ht.whole v hv
    rw [← h.whole v hv c]
    refine congrArg _ (contents_congr hvb fun o => ?_)
    refine hfp.frame m (b, o) fun hmem => ?_
    exact onBases_of_not_uses hu hmem hb

theorem Agree.last (h : Agree I opcode out tot t m m') (hI : I.Exact opcode)
    (hop : bhOpcodeIsReduction opcode = true) (ht : t.Valid) (ho : i.opcode = opcode)
    (hc : i.isComplete = true) (hfree : t.consumed = false) (hw : i.operand1 ∈ t.whole)
    (hout : i.operand0 = out) :
    Agree I opcode out tot { t with consumed := true } (runWhole I i m) m' := by
  subst ho
  have hrun : runWhole I i m = fill I i.opcode out tot m := by
    rw [runWhole_complete hI hop hc, h.whole _ hw, hout]
    rfl
  refine ⟨fun l hl => ?_, fun v hv c => ?_⟩
  · rw [h.off l hl, hfree, if_neg (by simp), if_pos rfl, hrun]
  · obtain ⟨b, hb, hvb⟩ := ht.whole v hv
    rw [← h.whole v hv c]
    refine congrArg _ (contents_congr hvb fun o => runWhole_of_base_ne I (fun he => ?_) m)
    -- the result has one element, an intermediate has not
    refine ht.nelem b hb ?_
    simpa [BhInstruction.isComplete, he] using hc

theorem Agree.link (h : Agree I opcode out tot t m m') (hI : I.Exact opcode)
    (hop : bhOpcodeIsReduction opcode = true) (ho : i.opcode = opcode)
    (hc : i.isComplete = false) : Agree I opcode out tot (t.link i) (runWhole I i m) m' := by
  subst ho
  refine ⟨fun l hl => ?_, fun v hv c => ?_⟩
  · have hw : i.operand0.base ≠ some l.1 := by
      intro he
      exact hl (by simp [Trail.link, he])
    rw [h.off l fun hmem => hl (List.mem_append_right _ hmem)]
    show (if t.consumed then m else fill I i.opcode out tot m) l =
      (if t.consumed then runWhole I i m else fill I i.opcode out tot (runWhole I i m)) l
    split
    · exact (runWhole_of_base_ne I hw m).symm
    · exact (fill_runWhole hw).symm
  · rcases List.mem_append.mp hv with hv | hv
    · split_ifs at hv with hfit
      · rw [List.mem_singleton.mp hv, total_reduction hI hop hfit.2 hc]
        exact h.whole _ hfit.1 i.constant
      · cases hv
    · obtain ⟨hv, hne⟩ := List.mem_filter.mp hv
      rw [← h.whole v hv c]
      cases hvb : v.base with
      | none => simp [contents, load, hvb]
      | some b =>
        refine congrArg _ (contents_congr hvb fun o => runWhole_of_base_ne I (fun he => ?_) m)
        rw [hvb, he] at hne
        simp at hne

/-- One instruction of the list and its counterpart in the struck list. -/
theorem Agree.step (h : Agree I opcode out tot t m m') (hI : I.Exact opcode)
    (hop : bhOpcodeIsReduction opcode = true) (ht : t.Valid) (hstep : t.Step dead opcode out i t') :
    Agree I opcode out tot t' (runWhole I i m)
      (runWhole I (if usesBases t.bases i then i.toNone else i) m') := by
  cases hstep with
  | pass hu hout =>
    rw [hu, if_neg (by simp)]
    exact h.pass ht hu hout
  | release hu ho =>
    have hsys : i.isSystem = true := by
      rcases ho with ho | ho <;> simp [BhInstruction.isSystem, ho, bhOpcodeIsSystem]
    rw [if_pos hu, runWhole_toNone, runWhole_system I hsys]
    exact h
  | last hu ho hown hc hfree hw hout =>
    rw [if_pos hu, runWhole_toNone]
    exact h.last hI hop ht ho hc hfree hw hout
  | link hu ho hown hc hdead =>
    rw [if_pos hu, runWhole_toNone]
    exact h.link hI hop ho hc

theorem Agree.run (h : Agree I opcode out tot t m m') (hI : I.Exact opcode)
    (hop : bhOpcodeIsReduction opcode = true) (ht : t.Valid)
    (hf : t.followAll dead opcode out l = some t') :
    Agree I opcode out tot t' (runList I l m) (runList I (strike opcode t.bases l) m') := by
  induction l generalizing t m m' with
  | nil =>
    obtain rfl := Option.some.inj hf
    exact h
  | cons i l ih =>
    obtain ⟨t₁, hstep, hrest⟩ := Trail.followAll_cons hf
    rw [strike_cons hop hstep, runList_cons, runList_cons]
    exact ih (h.step hI hop ht hstep) (ht.step hstep) hrest

end Simulation

/-! ## The filter -/

section Filter
variable {V : Type} {I : Interp V} {dead : List BhBase} {opcode : BhOpcode} {out : BhView} {t t' : Trail}
  {i : BhInstruction} {l : List BhInstruction}

/-- Behind its consumer a trail has a result of one element. -/
theorem nelem_of_consumed (h : t.followAll dead opcode out l = some t') (h0 : t.consumed = false)
    (h1 : t'.consumed = true) : out.base.map BhBase.nelem = some 1 := by
  induction l generalizing t with
  | nil =>
    obtain rfl := Option.some.inj h
    rw [h0] at h1
    cases h1
  | cons i l ih =>
    obtain ⟨t₁, hstep, hrest⟩ := Trail.followAll_cons h
    cases hstep with
    | pass hu hout => exact ih hrest (by rw [Trail.pass_consumed, h0])
    | release hu ho => exact ih hrest h0
    | last hu ho hown hc hfree hw hout => simpa [BhInstruction.isComplete, hout] using hc
    | link hu ho hown hc hdead => exact ih hrest h0

theorem bases_dead (h : t.followAll dead opcode out l = some t') (hd : ∀ b ∈ t.bases, b ∈ dead) :
    ∀ b ∈ t'.bases, b ∈ dead := by
  induction l generalizing t with
  | nil =>
    obtain rfl := Option.some.inj h
    exact hd
  | cons i l ih =>
    obtain ⟨t₁, hstep, hrest⟩ := Trail.followAll_cons h
    refine ih hrest ?_
    cases hstep with
    | pass hu hout => rwa [Trail.pass_bases]
    | release hu ho => exact hd
    | last hu ho hown hc hfree hw hout => exact hd
    | link hu ho hown hc hdead =>
      intro b hb
      rcases List.mem_append.mp hb with hb | hb
      · rw [Option.mem_toList] at hb
        simpa [hb] using hdead
      · exact hd b hb

/-- The first reduction and its rewritten form, from one memory on. -/
theorem agree_start (hI : I.Exact i.opcode) (hbegin : beginsChain i = true)
    (hout : out.base.map BhBase.nelem = some 1) (m : Mem V) :
    Agree I i.opcode out (Fold.total (I.sweep i.opcode none) (contents I i.constant i.operand1 m))
      (Trail.start i) (runWhole I i m) (runWhole I { i with operand0 := out } m) := by
  have hop := isReduction_of_beginsChain hbegin
  have hcomplete : ({ i with operand0 := out } : BhInstruction).isComplete = true := by
    simp [BhInstruction.isComplete, hout]
  refine ⟨fun l hl => ?_, fun v hv c => ?_⟩
  · have hw : i.operand0.base ≠ some l.1 := by
      intro he
      exact hl (by simp [Trail.start, he])
    rw [runWhole_complete (i := { i with operand0 := out }) hI hop hcomplete]
    exact (fill_runWhole hw).symm
  · unfold Trail.start at hv
    split_ifs at hv with hfit
    · rw [List.mem_singleton.mp hv]
      refine total_reduction hI hop hfit ?_ c m
      obtain ⟨b, hb, hn⟩ : ∃ b, i.operand0.base = some b ∧ 1 < b.nelem := by
        simpa [Option.any_eq_true] using (Bool.and_eq_true_iff.mp hbegin).2
      simp [BhInstruction.isComplete, hb, hn.ne']
    · cases hv

/-- One turn of the loop keeps every base outside `dead`. -/
theorem runList_filterAt {pc : ℕ} (hI : ∀ opcode, bhOpcodeIsReduction opcode = true → I.Exact opcode)
    (h : chainKept dead l pc = true) (m : Mem V) {loc : Loc} (hloc : loc.1 ∉ dead) :
    runList I (filterAt l pc) m loc = runList I l m loc := by
  rcases filterAt_cases h with he | ⟨pre, i, suf, out, t, rfl, rfl, hbegin, hdead, hcons, ht, he⟩
  · rw [he]
  · have hop := isReduction_of_beginsChain hbegin
    have hout := nelem_of_consumed ht rfl hcons
    have hagree := (agree_start (hI _ hop) hbegin hout (runList I pre m)).run (hI _ hop) hop
      (Trail.valid_start hbegin) ht
    have hd : ∀ b ∈ (Trail.start i).bases, b ∈ dead := by
      intro b hb
      simpa [Option.mem_toList.mp hb] using hdead
    have hoff := hagree.off loc fun hmem => hloc (bases_dead ht hd loc.1 hmem)
    rw [hcons, if_pos rfl] at hoff
    rw [he, runList_append, runList_append, runList_cons, runList_cons]
    exact hoff

/-- Every chain that `filter` would rewrite is proper: it reads whole intermediates, its single
result is not touched before it is there, and nobody wants an intermediate later. -/
def ChainsKept (l : List BhInstruction) : Prop := ∀ pc < l.length, chainKept (released l) l pc = true

instance (l : List BhInstruction) : Decidable (ChainsKept l) :=
  inferInstanceAs (Decidable (∀ pc < l.length, _))

/-- The loop over the first `n` instructions, from any list with proper chains. -/
theorem foldl_filterAt (hI : ∀ opcode, bhOpcodeIsReduction opcode = true → I.Exact opcode)
    (h : ∀ pc < l.length, chainKept dead l pc = true) (m : Mem V) {loc : Loc} (hloc : loc.1 ∉ dead)
    {n : ℕ} (hn : n ≤ l.length) :
    ((List.range n).foldl filterAt l).length = l.length ∧
      (∀ pc, n ≤ pc → pc < l.length → chainKept dead ((List.range n).foldl filterAt l) pc = true) ∧
      runList I ((List.range n).foldl filterAt l) m loc = runList I l m loc := by
  induction n with
  | zero => exact ⟨rfl, fun pc _ hpc => h pc hpc, rfl⟩
  | succ n ih =>
    obtain ⟨hlen, hkept, hrun⟩ := ih (Nat.le_of_succ_le hn)
    have hat := hkept n le_rfl hn
    rw [List.range_succ, List.foldl_append, List.foldl_cons, List.foldl_nil]
    refine ⟨(length_filterAt hat).trans hlen, fun pc hpc hpl => ?_, ?_⟩
    · exact chainKept_filterAt hpc hat (hkept pc (Nat.le_of_succ_le hpc) hpl)
    · rw [runList_filterAt hI hat m hloc, hrun]

/-- Lists with proper chains mean the same before and after the filter, in every base they do not
release. -/
theorem runList_filter (hI : ∀ opcode, bhOpcodeIsReduction opcode = true → I.Exact opcode)
    (h : ChainsKept l) (m : Mem V) {loc : Loc} (hloc : loc.1 ∉ released l) :
    runList I (filter l) m loc = runList I l m loc :=
  (foldl_filterAt hI h m hloc le_rfl).2.2

/-! ## The chain of `np.sum`, and one whose intermediate stays -/

theorem intInterp_exact (opcode : BhOpcode) : intInterp.Exact opcode := by
  refine ⟨fun x y => ?_, fun x y z => ?_, fun type => rfl⟩
  · cases opcode <;> first | rfl | exact add_comm x y | exact mul_comm x y | exact max_comm x y | exact min_comm x y
  · cases opcode <;> first | rfl | exact add_assoc x y z | exact mul_assoc x y z | exact max_assoc x y z | exact min_assoc x y z

/-- A matrix, its column sums and the sum of everything. -/
def matrix : BhView := ⟨some ⟨0, .int64, 4⟩, 0, [⟨2, 2⟩, ⟨2, 1⟩]⟩
def columns : BhView := ⟨some ⟨1, .int64, 2⟩, 0, [⟨2, 1⟩]⟩
def sum : BhView := ⟨some ⟨2, .int64, 1⟩, 0, [⟨1, 1⟩]⟩
def noView : BhView := ⟨none, 0, []⟩

def addReduce (out inp : BhView) : BhInstruction := ⟨.addReduce, out, inp, noView, .int .int64 0⟩

def release (v : BhView) : BhInstruction := ⟨.free, v, noView, noView, .int .int64 0⟩

def sumList : List BhInstruction := [addReduce columns matrix, addReduce sum columns, release columns]

def keepList : List BhInstruction := [addReduce columns matrix, addReduce sum columns]

def ones : Mem ℤ := fun _ => 1

theorem runList_filter_sumList : ChainsKept sumList ∧
    runList intInterp (filter sumList) ones (⟨2, .int64, 1⟩, 0) = 4 := by
  have h : ChainsKept sumList := by decide
  refine ⟨h, ?_⟩
  rw [runList_filter (fun opcode _ => intInterp_exact opcode) h ones (by decide)]
  decide

/-- Every base is used only before its `BH_DISCARD`. -/
def DiscardedLast (l : List BhInstruction) : Prop :=
  l.Pairwise fun i j => i.opcode = .discard → usesBases i.operand0.base.toList j = false

/-- The filter forgets the column sums even if nothing releases them. -/
theorem not_runList_filter_keepList :
    ¬ ∀ (V : Type) (I : Interp V), (∀ opcode, bhOpcodeIsReduction opcode = true → I.Exact opcode) →
      ∀ (l : List BhInstruction), DiscardedLast l → ∀ (m : Mem V) (loc : Loc), loc.1 ∉ released l →
        runList I (filter l) m loc = runList I l m loc := by
  intro h
  have hkeep : DiscardedLast keepList := by
    simp [DiscardedLast, keepList, addReduce]
  have heq := h ℤ intInterp (fun opcode _ => intInterp_exact opcode) keepList hkeep ones
    (⟨1, .int64, 2⟩, 0) (by decide)
  revert heq
  decide

end Filter
end Bccon
end Bohrium
