import Bohrium.Bxx.Ownership

/-! # The lifetime discipline

Which calls a program may make (`Legal`), which of them keep the discipline (`Tidy`), and what holds in
every state that a program reaches with such calls. -/
namespace Bohrium.Bxx
open Strided
set_option autoImplicit false

/-! ## Calls -/

/-- The operands of an operation: a temporary among them is the operation's to destroy. -/
def Action.passes : Action → List ℕ
  | .construct _ _ | .constructOn _ _ _ | .link _ | .linkTo _ _ | .setExternal _ _ | .destroy _ => []
  | .copy x | .assignConst x _ | .slice x _ _ _ | .viewAs x _ | .transpose x | .fill _ x _
  | .unaryNew _ _ x _ _ | .updateConst _ x _ | .scalar x => [x]
  | .assign x y | .update _ x y | .unary _ x y | .binaryConst _ _ x y _ | .binaryNew _ _ x y => [x, y]
  | .binary _ _ res lhs rhs => [res, lhs, rhs]

def Action.arrays : Action → List ℕ
  | .construct _ _ => []
  | .constructOn x _ _ | .link x | .setExternal x _ | .destroy x => [x]
  | .linkTo x y => [x, y]
  | a => a.passes

def Action.opcode? : Action → Option BhOpcode
  | .unary opcode _ _ | .fill opcode _ _ | .binary opcode _ _ _ _ | .binaryConst opcode _ _ _ _
  | .unaryNew opcode _ _ _ _ | .binaryNew opcode _ _ _ | .update opcode _ _ | .updateConst opcode _ _ => some opcode
  | _ => none

/-- What a program may do: use arrays that are alive, pass a temporary in one position, end the scope
of an array that has one. -/
structure Legal (w : Bridge) (a : Action) : Prop where
  alive : ∀ x ∈ a.arrays, (w.array? x).isSome = true
  once : ∀ x, w.isTemp x = true → a.passes.count x ≤ 1
  opcode : ∀ opcode ∈ a.opcode?, opcode ≠ .free ∧ opcode ≠ .discard
  scope : ∀ x, a = .destroy x → w.isTemp x = false

theorem Legal.of_nodup {w : Bridge} {a : Action} (halive : ∀ x ∈ a.arrays, (w.array? x).isSome = true)
    (hnodup : a.passes.Nodup) (hop : ∀ opcode ∈ a.opcode?.toList, opcode ≠ .free ∧ opcode ≠ .discard)
    (hscope : ∀ x, a = .destroy x → w.isTemp x = false) : Legal w a :=
  ⟨halive, fun x _ => List.nodup_iff_count_le_one.mp hnodup x,
    fun opcode ho => hop opcode (Option.mem_toList.mpr ho), hscope⟩

/-- An operation that may widen `x` to the shape of `res`. -/
def TidyRight (w : Bridge) (res x : ℕ) : Prop :=
  if (w.view res).ndim < (w.view x).ndim then w.isTemp res = false ∧ w.isTemp x = false
  else
    let b := broadcastRight (w.view res) (copied (w.view x))
    sameShape (w.view res) (w.view x) = true ∨
      ((w.isTemp x = true → x = res) ∧ (b.1 && sameShape (w.view res) b.2) = true)

/-- An operation with a result and two operands. -/
def TidyBoth (w : Bridge) (boolean : Bool) (res lhs rhs : ℕ) : Prop :=
  if sameShape (w.view lhs) (w.view rhs) = true then
    sameShape (w.view res) (w.view rhs) = true ∨ ∀ x ∈ [res, lhs, rhs], w.isTemp x = false
  else
    let b := broadcastInputs (if boolean then none else some (w.view res)) (w.view lhs) (w.view rhs)
    (w.isTemp lhs = true → lhs = res) ∧ (w.isTemp rhs = true → rhs = res) ∧
      (b.1 && sameShape (w.view res) b.2.2) = true

/-- No call throws with a temporary in its hands, no broadcast replaces a temporary, none is copied or
transposed, `operator=` does not drop the last reference to external data, and `link(base)` is not used. -/
def Tidy (w : Bridge) : Action → Prop
  | .copy x | .transpose x => w.isTemp x = false
  | .linkTo x y => (w.base? x).isSome = true ∨ w.base? y = none
  | .assign x y =>
    if (w.base? x).isSome ∧ w.base? x = w.base? y then
      w.isTemp x = w.isTemp y ∧ (w.isTemp x = true → TidyRight w x y)
    else if w.isTemp x then TidyRight w x y
    else ∀ b, w.base? x = some b → w.refCount b = 1 → w.external b = false
  | .assignConst x _ => (w.base? x).isSome = true ∨ (w.view x).ndim ≠ 0 ∨ w.isTemp x = false
  | .slice x _ _ _ => w.isTemp x = true →
    ∃ a, w.array? x = some a ∧ a.view.base.isSome = true ∧ (a.sliceDim + 1).toNat < a.view.ndim
  | .viewAs x shape => if (w.base? x).isSome then shape.prod = bhNelements (w.view x) else w.isTemp x = false
  | .unary _ res rhs => TidyRight w res rhs
  | .binaryConst _ _ res x _ => TidyRight w res x
  | .updateConst _ x _ => TidyRight w x x
  | .binary _ boolean res lhs rhs => TidyBoth w boolean res lhs rhs
  | .update _ x y => TidyBoth w false x x y
  | .binaryNew _ _ lhs rhs => sameShape (w.view lhs) (w.view rhs) = true ∨
    (w.isTemp lhs = false ∧ w.isTemp rhs = false ∧ (broadcastInputs none (w.view lhs) (w.view rhs)).1 = true)
  | .construct _ _ | .constructOn _ _ _ | .link _ | .setExternal _ _ | .fill _ _ _ | .unaryNew _ _ _ _ _
  | .scalar _ | .destroy _ => True

/-! ## One call -/

/-- What a call leaves: the invariant, the temporaries that were not passed to it and the one it
returns; those that were passed are destroyed. -/
structure Keeps (w : Bridge) (passed : List ℕ) (o : Outcome) : Prop where
  ok : Ok o.state
  temps : ∀ y, o.state.flag y = some (some true) ↔ (w.flag y = some (some true) ∧ y ∉ passed) ∨ o.value = some y
  destroyed : ∀ y ∈ passed, w.flag y = some (some true) → o.state.flag y = some none

theorem sweep_of_plain {w : Bridge} {xs : List ℕ} (h : ∀ x ∈ xs, w.isTemp x = false) : sweep xs w.flag = w.flag := by
  funext y
  by_cases hy : y ∈ xs
  · have ht : w.flag y ≠ some (some true) := by simpa [isTemp_eq] using h y hy
    simp [sweep, ht]
  · simp [sweep, hy]

namespace Keeps

variable {w : Bridge} {passed : List ℕ}

theorem of_sweep {o : Outcome} (hok : Ok o.state) (hvalue : o.value = none)
    (hflag : o.state.flag = sweep passed w.flag) : Keeps w passed o := by
  refine ⟨hok, fun y => ?_, fun y hy ht => ?_⟩
  · rw [hflag, hvalue]
    by_cases hy : y ∈ passed
    · by_cases ht : w.flag y = some (some true) <;> simp [sweep, hy, ht]
    · simp [sweep, hy]
  · rw [hflag]
    simp [sweep, hy, ht]

/-- A call that does nothing, with no temporary passed. -/
theorem idle (h : Ok w) (hp : ∀ x ∈ passed, w.isTemp x = false) (thrown : Bool) :
    Keeps w passed { state := w, thrown := thrown } := by
  exact of_sweep h rfl (sweep_of_plain hp).symm

/-- The operands that are widened are replaced by fresh temporaries, which the call destroys; of the
operands passed only the result may be a temporary. -/
theorem of_views (w' : Bridge) (res : ℕ) (fresh : List ℕ) {o : Outcome} (hok : Ok o.state) (hvalue : o.value = none)
    (hflag : o.state.flag = sweep (res :: fresh) w'.flag)
    (hold : ∀ y, y ∉ fresh → w'.flag y = w.flag y) (hfresh : ∀ y ∈ fresh, w.flag y = none)
    (hnew : ∀ y ∈ fresh, w'.flag y = some (some true))
    (hres : res ∈ passed) (hpassed : ∀ y ∈ passed, w.isTemp y = true → y = res) : Keeps w passed o := by
  have hfl : ∀ y, o.state.flag y = some (some true) ↔ w.flag y = some (some true) ∧ y ∉ passed := by
    intro y
    rw [hflag]
    by_cases hf : y ∈ fresh
    · simp [sweep, hf, hnew y hf, hfresh y hf]
    · by_cases hy : y = res
      · subst hy
        by_cases ht : w.flag y = some (some true) <;> simp [sweep, hold y hf, ht, hres]
      · simp only [sweep, List.mem_cons, hf, hy, or_self, false_and, if_false, hold y hf]
        exact ⟨fun ht => ⟨ht, fun hp => hy (hpassed y hp (by simp [isTemp_eq, ht]))⟩, And.left⟩
  refine ⟨hok, fun y => by simp [hfl, hvalue], fun y hy ht => ?_⟩
  have hyr := hpassed y hy (by simp [isTemp_eq, ht])
  have hf : y ∉ fresh := fun hf => by simp [hfresh y hf] at ht
  rw [hflag, hyr]
  rw [hyr] at ht hf
  simp [sweep, hold res hf, ht]

/-- A call that returns the new array `n`. -/
theorem of_value {o : Outcome} {n : ℕ} (hok : Ok o.state) (hn : w.flag n = none) (hvalue : o.value = some n)
    (hnew : o.state.flag n = some (some true))
    (hold : ∀ y, y ≠ n → w.flag y ≠ none → o.state.flag y = sweep passed w.flag y)
    (hother : ∀ y, y ≠ n → w.flag y = none → o.state.flag y ≠ some (some true)) : Keeps w passed o := by
  refine ⟨hok, fun y => ?_, fun y hy ht => ?_⟩
  · rw [hvalue, Option.some_inj]
    by_cases hy : y = n
    · subst hy
      simp [hnew]
    · by_cases hnone : w.flag y = none
      · simp [hother y hy hnone, hnone, Ne.symm hy]
      · rw [hold y hy hnone]
        by_cases hp : y ∈ passed
        · by_cases ht : w.flag y = some (some true) <;> simp [sweep, hp, ht, Ne.symm hy]
        · simp [sweep, hp, Ne.symm hy]
  · have hyn : y ≠ n := fun he => by simp [he ▸ hn] at ht
    rw [hold y hyn (by simp [ht])]
    simp [sweep, hy, ht]

theorem of_update {o : Outcome} {n : ℕ} (hok : Ok o.state) (hn : w.flag n = none) (hvalue : o.value = some n)
    (hflag : o.state.flag = Function.update (sweep passed w.flag) n (some (some true))) : Keeps w passed o := by
  apply of_value hok hn hvalue
  · rw [hflag, Function.update_self]
  · intro y hy _
    rw [hflag, Function.update_of_ne hy]
  · intro y hy hnone
    rw [hflag, Function.update_of_ne hy]
    simp [sweep, hnone]

/-- A call on no temporary that changes the flag of an array that is none, and not to a temporary. -/
theorem of_plain {o : Outcome} {n : ℕ} {flag : Option (Option Bool)} (hok : Ok o.state) (hvalue : o.value = none)
    (hflag : o.state.flag = Function.update w.flag n flag) (hn : w.flag n ≠ some (some true))
    (hplain : flag ≠ some (some true)) (hp : ∀ x ∈ passed, w.isTemp x = false) : Keeps w passed o := by
  have hp : ∀ x ∈ passed, w.flag x ≠ some (some true) := fun x hx => by simpa [isTemp_eq] using hp x hx
  refine ⟨hok, fun y => ?_, fun y hy ht => absurd ht (hp y hy)⟩
  rw [hflag, hvalue]
  by_cases hy : y = n
  · subst hy
    simp [hplain, hn]
  · rw [Function.update_of_ne hy]
    constructor
    · exact fun ht => Or.inl ⟨ht, fun hpy => hp y hpy ht⟩
    · intro ht
      simpa using (ht.resolve_right (by simp)).1

end Keeps

theorem sweep_congr {xs ys : List ℕ} (h : ∀ y, y ∈ xs ↔ y ∈ ys) (flag : ℕ → Option (Option Bool)) :
    sweep xs flag = sweep ys flag := by
  funext y
  simp only [sweep, h y]

section

variable {w : Bridge} {passed : List ℕ} {res x y : ℕ}

/-- The shape of `bh_op(res, rhs)` and of the operations with a constant. -/
theorem keeps_right (h : Ok w) (hx : (w.array? x).isSome = true) (ht : TidyRight w res x)
    (hpassed : ∀ y, y ∈ passed ↔ y ∈ [res, x]) {f : Bridge → ℕ → Bridge} (hok : ∀ w y, Ok w → Ok (f w y))
    (hflag : ∀ w y, (f w y).flag = sweep [res, y] w.flag) :
    Keeps w passed
      (if (w.view res).ndim < (w.view x).ndim then { state := w, thrown := true }
      else if sameShape (w.view res) (w.view x) then { state := f w x }
      else
        let b := broadcastRight (w.view res) (copied (w.view x))
        let v := w.tempView x 0 b.2.dims (-1)
        if b.1 && sameShape (w.view res) b.2 then { state := f v.1 v.2 } else { state := v.1, thrown := true }) := by
  have hcases : ∀ y ∈ passed, y = res ∨ y = x := fun y hy => by simpa using (hpassed y).mp hy
  unfold TidyRight at ht
  generalize broadcastRight (w.view res) (copied (w.view x)) = b at ht ⊢
  by_cases hdim : (w.view res).ndim < (w.view x).ndim
  · rw [if_pos hdim] at ht ⊢
    apply Keeps.idle h
    intro y hy
    obtain rfl | rfl := hcases y hy
    · exact ht.1
    · exact ht.2
  · rw [if_neg hdim] at ht ⊢
    by_cases hsame : sameShape (w.view res) (w.view x) = true
    · rw [if_pos hsame]
      exact Keeps.of_sweep (hok w x h) rfl ((hflag w x).trans (sweep_congr (fun y => (hpassed y).symm) _))
    · obtain ⟨htemp, hb⟩ := ht.resolve_left hsame
      rw [if_neg hsame]
      dsimp only
      rw [if_pos hb]
      obtain ⟨a, ha⟩ := Option.isSome_iff_exists.mp hx
      have hview := flag_tempView ha 0 b.2.dims (-1)
      apply Keeps.of_views (w.tempView x 0 b.2.dims (-1)).1 res [w.arrays.length]
      · exact hok _ _ (h.tempView ha 0 b.2.dims (-1))
      · rfl
      · show (f _ _).flag = _
        rw [hflag, tempView_snd ha]
      · intro y hy
        rw [hview, Function.update_of_ne (by simpa using hy)]
      · intro y hy
        exact flag_of_le (by rw [List.mem_singleton.mp hy])
      · intro y hy
        rw [hview, List.mem_singleton.mp hy, Function.update_self]
      · exact (hpassed res).mpr (by simp)
      · intro y hy hyt
        obtain rfl | rfl := hcases y hy
        · rfl
        · exact htemp hyt

theorem keeps_unary (h : Ok w) (hx : (w.array? x).isSome = true) (ht : TidyRight w res x) {opcode : BhOpcode}
    (hop : opcode ≠ .free ∧ opcode ≠ .discard) : Keeps w [res, x] (unary w opcode res x) :=
  keeps_right h hx ht (fun _ => Iff.rfl) (fun _ y h => h.enqueue hop.1 hop.2 res (some y) none (.int .int64 0))
    fun w y => flag_enqueue w opcode res (some y) none (.int .int64 0)

theorem keeps_binaryConst (h : Ok w) (hx : (w.array? x).isSome = true) (ht : TidyRight w res x) {opcode : BhOpcode}
    (hop : opcode ≠ .free ∧ opcode ≠ .discard) (left : Bool) (c : BhConstant)
    (hpassed : ∀ y, y ∈ passed ↔ y ∈ [res, x]) : Keeps w passed (binaryConst w opcode left res x c) := by
  apply keeps_right h hx ht hpassed (f := fun w y =>
    if left then w.enqueue opcode res (some y) none c else w.enqueue opcode res none (some y) c)
  · intro w y h
    cases left
    · exact h.enqueue hop.1 hop.2 res none (some y) c
    · exact h.enqueue hop.1 hop.2 res (some y) none c
  · intro w y
    cases left
    · exact flag_enqueue w opcode res none (some y) c
    · exact flag_enqueue w opcode res (some y) none c

/-- Two views of one operation. -/
theorem tempViews (h : Ok w) (hx : (w.array? x).isSome = true) (hy : (w.array? y).isSome = true) (dx dy : List Dim) :
    let l := w.tempView x 0 dx (-1)
    let r := l.1.tempView y 0 dy (-1)
    Ok r.1 ∧ l.2 = w.arrays.length ∧ r.2 = w.arrays.length + 1 ∧ r.1.arrays.length = w.arrays.length + 2 ∧
      r.1.flag = Function.update (Function.update w.flag w.arrays.length (some (some true)))
        (w.arrays.length + 1) (some (some true)) := by
  obtain ⟨a, ha⟩ := Option.isSome_iff_exists.mp hx
  obtain ⟨a', ha'⟩ := Option.isSome_iff_exists.mp hy
  have hlen : (w.tempView x 0 dx (-1)).1.arrays.length = w.arrays.length + 1 := by
    rw [arrays_tempView ha, List.length_append, List.length_singleton]
  have ha'' : (w.tempView x 0 dx (-1)).1.array? y = some a' := by
    rw [array?_append (arrays_tempView ha 0 dx (-1)), if_neg (Nat.ne_of_lt (lt_of_array? ha')), ha']
  refine ⟨(h.tempView ha 0 dx (-1)).tempView ha'' 0 dy (-1), tempView_snd ha 0 dx (-1), ?_, ?_, ?_⟩
  · rw [tempView_snd ha'', hlen]
  · rw [arrays_tempView ha'', List.length_append, List.length_singleton, hlen]
  · rw [flag_tempView ha'', flag_tempView ha, hlen]

theorem keeps_binary {lhs rhs : ℕ} (h : Ok w) (hl : (w.array? lhs).isSome = true) (hr : (w.array? rhs).isSome = true)
    {boolean : Bool} (ht : TidyBoth w boolean res lhs rhs) {opcode : BhOpcode}
    (hop : opcode ≠ .free ∧ opcode ≠ .discard) (hpassed : ∀ y, y ∈ passed ↔ y ∈ [res, lhs, rhs]) :
    Keeps w passed (binary w opcode boolean res lhs rhs) := by
  unfold TidyBoth at ht
  unfold binary
  generalize broadcastInputs (if boolean then none else some (w.view res)) (w.view lhs) (w.view rhs) = b at ht ⊢
  by_cases hsame : sameShape (w.view lhs) (w.view rhs) = true
  · rw [if_pos hsame] at ht ⊢
    by_cases hres : sameShape (w.view res) (w.view rhs) = true
    · rw [if_pos hres]
      apply Keeps.of_sweep (h.enqueue hop.1 hop.2 res (some lhs) (some rhs) (.int .int64 0)) rfl
      rw [flag_enqueue]
      exact sweep_congr (fun y => (hpassed y).symm) _
    · rw [if_neg hres]
      exact Keeps.idle h (fun y hy => ht.resolve_left hres y ((hpassed y).mp hy)) true
  · rw [if_neg hsame] at ht ⊢
    obtain ⟨hlt, hrt, hb⟩ := ht
    dsimp only
    rw [if_pos hb]
    obtain ⟨hok, hlnum, hrnum, _, hview⟩ := tempViews h hl hr b.2.1.dims b.2.2.dims
    apply Keeps.of_views ((w.tempView lhs 0 b.2.1.dims (-1)).1.tempView rhs 0 b.2.2.dims (-1)).1 res
      [w.arrays.length, w.arrays.length + 1]
    · dsimp only
      exact hok.enqueue hop.1 hop.2 _ _ _ _
    · rfl
    · show (Bridge.enqueue _ _ _ _ _ _).flag = _
      rw [flag_enqueue, hlnum, hrnum]
      rfl
    · intro y hy
      simp only [List.mem_cons, List.not_mem_nil, or_false, not_or] at hy
      rw [hview, Function.update_of_ne hy.2, Function.update_of_ne hy.1]
    · intro y hy
      simp only [List.mem_cons, List.not_mem_nil, or_false] at hy
      exact flag_of_le (by omega)
    · intro y hy
      simp only [List.mem_cons, List.not_mem_nil, or_false] at hy
      rw [hview]
      obtain rfl | rfl := hy <;> simp
    · exact (hpassed res).mpr (by simp)
    · intro y hy hyt
      have hy := (hpassed y).mp hy
      simp only [List.mem_cons, List.not_mem_nil, or_false] at hy
      obtain rfl | rfl | rfl := hy
      · rfl
      · exact hlt hyt
      · exact hrt hyt

theorem array?_of_flag {temp : Bool} (h : w.flag x = some (some temp)) : ∃ a, w.array? x = some a := by
  unfold Bridge.flag at h
  cases hx : w.arrays[x]? with
  | none => simp [hx] at h
  | some o =>
    cases o with
    | none => simp [hx] at h
    | some a => exact ⟨a, by simp [Bridge.array?, hx]⟩

/-- The operations that make their result. -/
theorem result_spec (h : Ok w) (type : BhType) (shape : BhView) {opcode : BhOpcode}
    (hop : opcode ≠ .free ∧ opcode ≠ .discard) (x₁ x₂ : Option ℕ) (c : BhConstant) :
    let r := w.newResult type shape
    let w' := (r.1.enqueue opcode r.2 x₁ x₂ c).setTemp r.2 true
    Ok w' ∧ r.2 = w.arrays.length ∧
      w'.flag = Function.update (sweep (x₁.toList ++ x₂.toList) w.flag) w.arrays.length (some (some true)) := by
  obtain ⟨hok, hnum, hflag⟩ := newResult_spec h type shape
  intro r w'
  have hok' : Ok (r.1.enqueue opcode r.2 x₁ x₂ c) := hok.enqueue hop.1 hop.2 _ _ _ _
  have hflag' : (r.1.enqueue opcode r.2 x₁ x₂ c).flag = sweep (r.2 :: (x₁.toList ++ x₂.toList)) r.1.flag :=
    flag_enqueue _ _ _ _ _ _
  have hres : (r.1.enqueue opcode r.2 x₁ x₂ c).flag r.2 = some (some false) := by
    rw [hflag', hflag, hnum]
    simp [sweep]
  obtain ⟨a, ha⟩ := array?_of_flag hres
  refine ⟨hok'.update ha rfl, hnum, ?_⟩
  show (Bridge.setTemp _ _ _).flag = _
  rw [flag_setTemp ha, hflag', hflag, hnum]
  funext y
  by_cases hy : y = w.arrays.length
  · subst hy
    simp
  · simp [sweep, hy]

theorem keeps_unaryNew (h : Ok w) {opcode : BhOpcode} (hop : opcode ≠ .free ∧ opcode ≠ .discard) (type : BhType)
    (x : ℕ) (c : BhConstant) (left : Bool) : Keeps w [x] (unaryNew w opcode type x c left) := by
  unfold unaryNew
  cases left with
  | true =>
    obtain ⟨hok, hnum, hflag⟩ := result_spec h type (w.view x) hop (some x) none c
    exact Keeps.of_update hok (flag_of_le le_rfl) (congrArg some hnum) hflag
  | false =>
    obtain ⟨hok, hnum, hflag⟩ := result_spec h type (w.view x) hop none (some x) c
    exact Keeps.of_update hok (flag_of_le le_rfl) (congrArg some hnum) hflag

theorem keeps_binaryNew {lhs rhs : ℕ} (h : Ok w) (hl : (w.array? lhs).isSome = true)
    (hr : (w.array? rhs).isSome = true) {opcode : BhOpcode} (hop : opcode ≠ .free ∧ opcode ≠ .discard) (type : BhType)
    (ht : Tidy w (.binaryNew opcode type lhs rhs)) : Keeps w [lhs, rhs] (binaryNew w opcode type lhs rhs) := by
  simp only [Tidy] at ht
  unfold binaryNew
  by_cases hsame : sameShape (w.view lhs) (w.view rhs) = true
  · obtain ⟨hok, hnum, hflag⟩ := result_spec h type (w.view lhs) hop (some lhs) (some rhs) (.int .int64 0)
    dsimp only
    rw [if_pos hsame]
    exact Keeps.of_update hok (flag_of_le le_rfl) (congrArg some hnum) hflag
  · obtain ⟨hlt, hrt, hb⟩ := ht.resolve_left hsame
    dsimp only
    rw [if_neg hsame, if_pos hb]
    generalize broadcastInputs none (w.view lhs) (w.view rhs) = b
    obtain ⟨hviews, hlnum, hrnum, hlen, hview⟩ := tempViews h hl hr b.2.1.dims b.2.2.dims
    obtain ⟨hok, hnum, hflag⟩ := result_spec hviews type b.2.1 hop (some (w.tempView lhs 0 b.2.1.dims (-1)).2)
      (some ((w.tempView lhs 0 b.2.1.dims (-1)).1.tempView rhs 0 b.2.2.dims (-1)).2) (.int .int64 0)
    rw [hlnum, hrnum, hlen, hview] at hflag
    have hplain : sweep [lhs, rhs] w.flag = w.flag := sweep_of_plain (by simp [hlt, hrt])
    apply Keeps.of_value (n := w.arrays.length + 2) hok (flag_of_le (by omega)) (congrArg some (hnum.trans hlen))
    · show Bridge.flag _ _ = _
      rw [hlnum, hrnum, hflag, Function.update_self]
    · intro y hy hsome
      have hlt : y < w.arrays.length := by
        by_contra hle
        exact hsome (flag_of_le (by omega))
      show Bridge.flag _ _ = _
      rw [hlnum, hrnum, hflag, hplain, Function.update_of_ne hy]
      have h0 : y ≠ w.arrays.length := by omega
      have h1 : y ≠ w.arrays.length + 1 := by omega
      simp [sweep, h0, h1]
    · intro y hy hnone
      show Bridge.flag _ _ ≠ _
      rw [hlnum, hrnum, hflag, Function.update_of_ne hy]
      by_cases h0 : y = w.arrays.length
      · subst h0
        simp [sweep]
      · by_cases h1 : y = w.arrays.length + 1
        · subst h1
          simp [sweep]
        · simp [sweep, h0, h1, hnone]

theorem keeps_assign (h : Ok w) (hx : (w.array? x).isSome = true) (hy : (w.array? y).isSome = true)
    (ht : Tidy w (.assign x y)) : Keeps w [x, y] (assign w x y) := by
  have hop : BhOpcode.identity ≠ .free ∧ BhOpcode.identity ≠ .discard := by decide
  simp only [Tidy] at ht
  unfold assign
  by_cases hbase : (w.base? x).isSome ∧ w.base? x = w.base? y
  · rw [if_pos hbase] at ht ⊢
    obtain ⟨hboth, htidy⟩ := ht
    rw [← hboth, Bool.and_self, Bool.or_self]
    by_cases hxt : w.isTemp x = true
    · rw [if_pos hxt]
      exact keeps_unary h hy (htidy hxt) hop
    · rw [if_neg hxt]
      have hxf : w.isTemp x = false := by simpa using hxt
      apply Keeps.idle h
      intro z hz
      simp only [List.mem_cons, List.not_mem_nil, or_false] at hz
      obtain rfl | rfl := hz
      · exact hxf
      · exact hboth ▸ hxf
  · rw [if_neg hbase] at ht ⊢
    by_cases hxt : w.isTemp x = true
    · rw [if_pos hxt] at ht ⊢
      exact keeps_unary h hy ht hop
    · rw [if_neg hxt] at ht ⊢
      obtain ⟨a, ha⟩ := Option.isSome_iff_exists.mp hx
      obtain ⟨a', ha'⟩ := Option.isSome_iff_exists.mp hy
      have hne : w.base? x = none ∨ w.base? x ≠ w.base? y := by
        cases hb : w.base? x with
        | none => exact Or.inl rfl
        | some b => exact Or.inr fun he => hbase ⟨by simp [hb], hb ▸ he⟩
      obtain ⟨hok, hflag⟩ := h.alias ha ha' hne ht
      apply Keeps.of_sweep (hok.deleteTemp y) rfl
      show (Bridge.deleteTemp _ y).flag = _
      rw [flag_deleteTemp, hflag]
      have hxf : w.flag x ≠ some (some true) := by simpa [isTemp_eq] using hxt
      funext z
      by_cases hz : z = x
      · subst hz
        simp [sweep, hxf]
      · simp [sweep, hz]

theorem keeps_assignConst (h : Ok w) (hx : (w.array? x).isSome = true) (c : BhConstant)
    (ht : Tidy w (.assignConst x c)) : Keeps w [x] (assignConst w x c) := by
  have hop : BhOpcode.identity ≠ .free ∧ BhOpcode.identity ≠ .discard := by decide
  unfold assignConst
  split_ifs with hb hdim
  · exact Keeps.of_sweep (h.enqueue hop.1 hop.2 x none none c) rfl (flag_enqueue _ _ _ _ _ _)
  · obtain ⟨a, ha⟩ := Option.isSome_iff_exists.mp hx
    have hv : a.view.base = none := by simpa [base?_eq ha] using hb
    apply Keeps.of_sweep ((h.link ha hv).enqueue hop.1 hop.2 x none none c) rfl
    show (Bridge.enqueue _ _ _ _ _ _).flag = _
    rw [flag_enqueue, flag_link ha]
    rfl
  · have hplain : w.isTemp x = false := (ht.resolve_left hb).resolve_left hdim
    exact Keeps.idle h (by simpa using hplain) true

/-- A view of `x` that replaces it. -/
theorem keeps_view (h : Ok w) (hx : (w.array? x).isSome = true) (start : ℤ) (dims : List Dim) (sliceDim : ℤ) :
    Keeps w [x] { state := (w.tempView x start dims sliceDim).1.deleteTemp x
                  value := some (w.tempView x start dims sliceDim).2 } := by
  obtain ⟨a, ha⟩ := Option.isSome_iff_exists.mp hx
  have hok := (h.tempView ha start dims sliceDim).deleteTemp x
  apply Keeps.of_update hok (flag_of_le le_rfl) (congrArg some (tempView_snd ha start dims sliceDim))
  show (Bridge.deleteTemp _ _).flag = _
  rw [flag_deleteTemp, flag_tempView ha]
  have hne : w.arrays.length ≠ x := Nat.ne_of_gt (lt_of_array? ha)
  funext y
  by_cases hy : y = w.arrays.length
  · subst hy
    simp [sweep, hne]
  · simp [sweep, Function.update_of_ne hy]

theorem keeps_slice (h : Ok w) (hx : (w.array? x).isSome = true) (first last : ℤ) (step : ℕ)
    (ht : Tidy w (.slice x first last step)) : Keeps w [x] (slice w x first last step) := by
  have hthrow : (¬ ∃ a, w.array? x = some a ∧ a.view.base.isSome = true ∧ (a.sliceDim + 1).toNat < a.view.ndim) →
      Keeps w [x] { state := w, thrown := true } := by
    intro hnot
    apply Keeps.idle h
    intro y hy
    rw [List.mem_singleton.mp hy]
    by_contra htemp
    exact hnot (ht (by simpa using htemp))
  obtain ⟨a, ha⟩ := Option.isSome_iff_exists.mp hx
  simp only [slice, ha]
  split
  · exact keeps_view h hx _ _ _
  · rename_i hnone
    apply hthrow
    intro ⟨a', ha', hb, hdim⟩
    obtain rfl : a = a' := Option.some_inj.mp (ha.symm.trans ha')
    obtain ⟨b, hb⟩ := Option.isSome_iff_exists.mp hb
    exact hnone b _ hb (List.getElem?_eq_getElem hdim)

theorem keeps_viewAs (h : Ok w) (hx : (w.array? x).isSome = true) (shape : List ℕ)
    (ht : Tidy w (.viewAs x shape)) : Keeps w [x] (viewAs w x shape) := by
  simp only [Tidy] at ht
  unfold viewAs
  by_cases hb : (w.base? x).isSome = true
  · have hnone : ¬ (w.base? x).isNone = true := by simpa [Option.isSome_iff_ne_none] using hb
    rw [if_pos hb] at ht
    rw [if_neg hnone]
    dsimp only
    rw [if_pos ht]
    exact keeps_view h hx _ _ _
  · have hnone : (w.base? x).isNone = true := by simpa using hb
    rw [if_neg hb] at ht
    rw [if_pos hnone]
    exact Keeps.idle h (by simpa using ht) true

theorem keeps_transpose (h : Ok w) (hx : (w.array? x).isSome = true) (ht : w.isTemp x = false) :
    Keeps w [x] (transpose w x) := by
  unfold transpose
  split
  · exact Keeps.idle h (by simpa using ht) true
  · obtain ⟨a, ha⟩ := Option.isSome_iff_exists.mp hx
    apply Keeps.of_update (h.tempView ha _ _ _) (flag_of_le le_rfl) (congrArg some (tempView_snd ha _ _ _))
    rw [sweep_of_plain (by simpa using ht)]
    exact flag_tempView ha _ _ _

theorem keeps_scalar (h : Ok w) (hx : (w.array? x).isSome = true) : Keeps w [x] (scalar w x) := by
  obtain ⟨a, ha⟩ := Option.isSome_iff_exists.mp hx
  have hplain : Ok (w.setTemp x false) := h.update ha rfl
  have hsync : Ok ((w.setTemp x false).enqueue .sync x none none (.int .int64 0)).flush :=
    (hplain.enqueue (by decide) (by decide) x none none (.int .int64 0)).flush
  have hflag : ((w.setTemp x false).enqueue .sync x none none (.int .int64 0)).flush.flag =
      Function.update w.flag x (some (some false)) := by
    rw [flag_flush, flag_enqueue, flag_setTemp ha]
    funext y
    by_cases hy : y = x
    · subst hy
      simp [sweep]
    · simp [sweep, hy]
  have hplainx : ((w.setTemp x false).enqueue .sync x none none (.int .int64 0)).flush.flag x = some (some false) := by
    rw [hflag, Function.update_self]
  obtain ⟨a', ha'⟩ := array?_of_flag hplainx
  unfold scalar
  by_cases ht : w.isTemp x = true
  · have hfl : w.flag x = some (some true) := by simpa [isTemp_eq] using ht
    dsimp only
    rw [if_pos ht]
    apply Keeps.of_sweep (hsync.destroy ha').flush rfl
    show (Bridge.flush _).flag = _
    rw [flag_flush, flag_destroy (lt_of_array? ha'), hflag]
    funext y
    by_cases hy : y = x
    · subst hy
      simp [sweep, hfl]
    · simp [sweep, hy]
  · have hfl : w.flag x = some (some false) := by
      have : a.temp = false := by simpa [isTemp_eq, flag_of_array? ha] using ht
      rw [flag_of_array? ha, this]
    dsimp only
    rw [if_neg ht]
    apply Keeps.of_sweep hsync rfl
    show (Bridge.flush _).flag = _
    rw [hflag, sweep_of_plain (by simpa using ht)]
    exact Function.update_eq_self_iff.mpr hfl.symm

theorem keeps_step {a : Action} (h : Ok w) (hl : Legal w a) (ht : Tidy w a) : Keeps w a.passes (w.step a) := by
  have hop : ∀ opcode ∈ a.opcode?, opcode ≠ .free ∧ opcode ≠ .discard := hl.opcode
  have halive := hl.alive
  cases a with
  | construct type shape =>
    exact Keeps.of_plain (h.construct rfl) rfl (flag_append rfl) (by simp [flag_of_le le_rfl]) (by simp)
      (fun x hx => by cases hx)
  | copy x =>
    obtain ⟨a, ha⟩ := Option.isSome_iff_exists.mp (halive x (by simp [Action.arrays, Action.passes]))
    simp only [Bridge.step, ha]
    exact Keeps.of_plain (h.construct rfl) rfl (flag_append rfl) (by simp [flag_of_le le_rfl]) (by simp)
      (by simpa [Action.passes, Tidy] using ht)
  | constructOn x start dims =>
    obtain ⟨a, ha⟩ := Option.isSome_iff_exists.mp (halive x (by simp [Action.arrays]))
    simp only [Bridge.step, ha]
    have hflag : ((w.addReference a.view).construct { type := a.type, view := ⟨a.view.base, start, dims⟩ }).1.flag =
        Function.update w.flag w.arrays.length (some (some false)) :=
      flag_append (w := w) (a := { type := a.type, view := ⟨a.view.base, start, dims⟩ }) (by simp [Bridge.construct])
    exact Keeps.of_plain (h.constructOn ha rfl) rfl hflag (by simp [flag_of_le le_rfl]) (by simp)
      (fun x hx => by cases hx)
  | link x =>
    obtain ⟨a, ha⟩ := Option.isSome_iff_exists.mp (halive x (by simp [Action.arrays]))
    simp only [Bridge.step]
    split
    · exact Keeps.idle h (fun x hx => by cases hx) true
    · rename_i hb
      have hv : a.view.base = none := by simpa [base?_eq ha] using hb
      apply Keeps.of_sweep (h.link ha hv) rfl
      rw [sweep_of_plain (fun x hx => by cases hx)]
      exact flag_link ha
  | linkTo x y =>
    obtain ⟨a, ha⟩ := Option.isSome_iff_exists.mp (halive x (by simp [Action.arrays]))
    simp only [Bridge.step]
    by_cases hb : (w.base? x).isSome = true
    · rw [if_pos hb]
      exact Keeps.idle h (fun x hx => by cases hx) true
    · rw [if_neg hb, ht.resolve_left hb]
      have hv : a.view.base = none := by simpa [base?_eq ha] using hb
      apply Keeps.of_sweep (h.update ha (by simp [hv])) rfl
      rw [sweep_of_plain (fun x hx => by cases hx)]
      exact (flag_set (lt_of_array? ha) (arrays_update ha _)).trans
        (Function.update_eq_self_iff.mpr (flag_of_array? ha).symm)
  | setExternal x value =>
    simp only [Bridge.step]
    split
    · exact Keeps.idle h (fun x hx => by cases hx) false
    · have hs := h.sound
      apply Keeps.of_sweep (h.frame ⟨⟨hs.collected.garbage, hs.collected.nodup, hs.collected.queued, hs.collected.room⟩,
        hs.nonneg, hs.live, hs.gone, hs.fresh⟩ rfl rfl rfl) rfl
      rw [sweep_of_plain (fun x hx => by cases hx)]
      exact flag_of_arrays rfl
  | assign x y =>
    exact keeps_assign h (halive x (by simp [Action.arrays, Action.passes]))
      (halive y (by simp [Action.arrays, Action.passes])) ht
  | assignConst x c => exact keeps_assignConst h (halive x (by simp [Action.arrays, Action.passes])) c ht
  | slice x first last step =>
    exact keeps_slice h (halive x (by simp [Action.arrays, Action.passes])) first last step ht
  | viewAs x shape => exact keeps_viewAs h (halive x (by simp [Action.arrays, Action.passes])) shape ht
  | transpose x => exact keeps_transpose h (halive x (by simp [Action.arrays, Action.passes])) ht
  | unary opcode res rhs =>
    exact keeps_unary h (halive rhs (by simp [Action.arrays, Action.passes])) ht (hop opcode rfl)
  | fill opcode res c =>
    have hop := hop opcode rfl
    exact Keeps.of_sweep (h.enqueue hop.1 hop.2 res none none c) rfl (flag_enqueue _ _ _ _ _ _)
  | binary opcode boolean res lhs rhs =>
    exact keeps_binary h (halive lhs (by simp [Action.arrays, Action.passes]))
      (halive rhs (by simp [Action.arrays, Action.passes])) ht (hop opcode rfl) fun _ => Iff.rfl
  | binaryConst opcode left res x c =>
    exact keeps_binaryConst h (halive x (by simp [Action.arrays, Action.passes])) ht (hop opcode rfl) left c
      fun _ => Iff.rfl
  | unaryNew opcode type x c left => exact keeps_unaryNew h (hop opcode rfl) type x c left
  | binaryNew opcode type lhs rhs =>
    exact keeps_binaryNew h (halive lhs (by simp [Action.arrays, Action.passes]))
      (halive rhs (by simp [Action.arrays, Action.passes])) (hop opcode rfl) type ht
  | update opcode x y =>
    exact keeps_binary h (halive x (by simp [Action.arrays, Action.passes]))
      (halive y (by simp [Action.arrays, Action.passes])) ht (hop opcode rfl) fun z => by simp [Action.passes]
  | updateConst opcode x c =>
    exact keeps_binaryConst h (halive x (by simp [Action.arrays, Action.passes])) ht (hop opcode rfl) true c
      fun z => by simp [Action.passes]
  | scalar x => exact keeps_scalar h (halive x (by simp [Action.arrays, Action.passes]))
  | destroy x =>
    obtain ⟨a, ha⟩ := Option.isSome_iff_exists.mp (halive x (by simp [Action.arrays]))
    have hplain : w.flag x ≠ some (some true) := by simpa [isTemp_eq] using hl.scope x rfl
    exact Keeps.of_plain (h.destroy ha) rfl (flag_destroy (lt_of_array? ha)) hplain (by simp)
      (fun x hx => by cases hx)

end

/-! ## Programs -/

/-- The states of the programs whose calls are all allowed by `P`. -/
inductive Reachable (P : Bridge → Action → Prop) : Bridge → Prop
  | start : Reachable P {}
  | step {w : Bridge} {a : Action} : Reachable P w → P w a → Reachable P (w.step a).state

/-- The state after a list of calls. -/
def run (actions : List Action) : Bridge := actions.foldl (fun w a => (w.step a).state) {}

/-- What the log and the counts say in one state. -/
structure Disciplined (w : Bridge) : Prop where
  refs : ∀ b, w.refCount b = w.count b
  live : ∀ b, 0 < w.count b → Trail b .live w.log
  ended : ∀ b, .create b ∈ w.log → w.count b = 0 →
    ∃ external, Trail b (.discarded external) w.log ∨ Trail b (.deleted external) w.log
  destroyed : ∀ x, w.destroyed.count x = if w.arrays[x]? = some none then 1 else 0

theorem Ok.start : Ok {} := by
  have habsent : ∀ b, phase b ({} : Bridge).log = .absent := fun b => rfl
  refine ⟨⟨⟨fun b => ?_, List.nodup_nil, fun b external hp => ?_, Nat.zero_le _⟩, fun b => le_rfl, fun b hb => ?_,
    fun b _ => Or.inl (habsent b), fun b _ => habsent b⟩, fun b => rfl, List.nodup_nil, fun x => ?_⟩
  · simp [habsent]
  · simp [habsent] at hp
  · exact absurd hb (lt_irrefl 0)
  · simp

theorem Ok.of_reachable {w : Bridge} (h : Reachable (fun w a => Legal w a ∧ Tidy w a) w) : Ok w := by
  induction h with
  | start => exact Ok.start
  | step _ ha ih => exact (keeps_step ih ha.1 ha.2).ok

theorem Ok.disciplined {w : Bridge} (h : Ok w) : Disciplined w := by
  refine ⟨h.refs, fun b hb => ?_, fun b hb hzero => ?_, fun x => ?_⟩
  · have hlive := h.sound.live b (by rw [h.refs b]; exact_mod_cast hb)
    exact hlive ▸ trail_phase b w.log
  · have htrail := trail_phase b w.log
    obtain habsent | ⟨external, hd | hd⟩ := h.sound.gone b (by rw [h.refs b, hzero]; rfl)
    · rw [habsent] at htrail
      exact absurd rfl (htrail _ hb)
    · exact ⟨external, Or.inl (hd ▸ htrail)⟩
    · exact ⟨external, Or.inr (hd ▸ htrail)⟩
  · split
    · rename_i hdead
      exact List.count_eq_one_of_mem h.nodup ((h.destroyed x).mpr hdead)
    · rename_i halive
      exact List.count_eq_zero.mpr fun hx => halive ((h.destroyed x).mp hx)

/-- In every state of such a program the counts, the log and the destructors are as they should be, and
every further such call destroys the temporaries it is given, once, and leaves no other temporary than
the one it returns. -/
theorem disciplined_of_reachable {w : Bridge} (h : Reachable (fun w a => Legal w a ∧ Tidy w a) w) :
    Disciplined w ∧ ∀ a, Legal w a → Tidy w a →
      (∀ x ∈ a.passes, w.isTemp x = true →
        w.destroyed.count x = 0 ∧ (w.step a).state.destroyed.count x = 1) ∧
      ∀ x, (w.step a).state.isTemp x = true ↔
        (w.isTemp x = true ∧ x ∉ a.passes) ∨ (w.step a).value = some x := by
  have hok := Ok.of_reachable h
  refine ⟨hok.disciplined, fun a hl ht => ?_⟩
  have hkeeps := keeps_step hok hl ht
  constructor
  · intro x hx htemp
    have hflag : w.flag x = some (some true) := by simpa [isTemp_eq] using htemp
    obtain ⟨a', ha'⟩ := array?_of_flag hflag
    have hdead : (w.step a).state.arrays[x]? = some none := by
      have hnone := hkeeps.destroyed x hx hflag
      rw [Bridge.flag, Option.map_eq_some_iff] at hnone
      obtain ⟨o, ho, hmap⟩ := hnone
      rw [ho, Option.map_eq_none_iff.mp hmap]
    constructor
    · exact List.count_eq_zero.mpr (hok.not_destroyed ha')
    · rw [hkeeps.ok.disciplined.destroyed x, if_pos hdead]
  · intro x
    simpa [isTemp_eq] using hkeeps.temps x

/-- A matrix, a temporary made from it, and the value of the temporary. -/
def valueOfTemp : List Action :=
  [.construct .float64 [2, 1], .assignConst 0 (.int .float64 0), .unaryNew .add .float64 0 (.int .float64 1) true]

theorem disciplined_of_reachable_valueOfTemp :
    (run valueOfTemp).isTemp 1 = true ∧ Disciplined (run valueOfTemp) ∧
      ((run valueOfTemp).step (.scalar 1)).state.destroyed.count 1 = 1 := by
  have h₁ : Reachable (fun w a => Legal w a ∧ Tidy w a) (run (valueOfTemp.take 1)) :=
    .step .start ⟨Legal.of_nodup (by decide) (by decide) (by decide) (fun x h => by cases h), trivial⟩
  have h₂ : Reachable (fun w a => Legal w a ∧ Tidy w a) (run (valueOfTemp.take 2)) :=
    .step h₁ ⟨Legal.of_nodup (by decide) (by decide) (by decide) (fun x h => by cases h),
      Or.inr (Or.inl (by decide))⟩
  have h₃ : Reachable (fun w a => Legal w a ∧ Tidy w a) (run valueOfTemp) :=
    .step h₂ ⟨Legal.of_nodup (by decide) (by decide) (by decide) (fun x h => by cases h), trivial⟩
  have hlegal : Legal (run valueOfTemp) (.scalar 1) :=
    Legal.of_nodup (by decide) (by decide) (by decide) fun x h => by cases h
  obtain ⟨hd, hstep⟩ := disciplined_of_reachable h₃
  refine ⟨by decide, hd, ?_⟩
  exact ((hstep (.scalar 1) hlegal trivial).1 1 (by decide) (by decide)).2

/-- Two matrices of different shapes and a temporary of the shape of the first. -/
def temporary : List Action :=
  [.construct .float64 [1, 1], .construct .float64 [2, 1], .link 0, .link 1,
    .unaryNew .identity .float64 0 (.int .int64 0) true]

/-- A matrix with external data that becomes an alias of another one. -/
def externalData : List Action :=
  [.construct .float64 [2, 1], .construct .float64 [2, 1], .link 0, .link 1, .setExternal 0 true, .assign 0 1]

/-- A temporary that is broadcast is not destroyed, and `operator=` frees external data. -/
theorem not_disciplined :
    (Reachable Legal (run temporary) ∧ Legal (run temporary) (.binaryNew .add .float64 2 1) ∧
      (run temporary).isTemp 2 = true ∧
      ((run temporary).step (.binaryNew .add .float64 2 1)).thrown = false ∧
      2 ∉ ((run temporary).step (.binaryNew .add .float64 2 1)).state.destroyed) ∧
    Reachable Legal (run externalData) ∧ .release ⟨0, .float64, 2⟩ true ∈ (run externalData).log ∧
      (run externalData).log.countP (Event.isFree ⟨0, .float64, 2⟩) = 1 := by
  have hlegal : ∀ {w : Bridge} {a : Action}, (∀ x ∈ a.arrays, (w.array? x).isSome = true) → a.passes.Nodup →
      (∀ opcode ∈ a.opcode?.toList, opcode ≠ .free ∧ opcode ≠ .discard) → (∀ x, a ≠ .destroy x) → Legal w a :=
    fun halive hnodup hop hscope => Legal.of_nodup halive hnodup hop fun x hx => absurd hx (hscope x)
  refine ⟨⟨?_, ?_, by decide, by decide, by decide⟩, ?_, by decide, by decide⟩
  · have h₁ : Reachable Legal (run (temporary.take 1)) :=
      .step .start (hlegal (by decide) (by decide) (by decide) (by simp))
    have h₂ : Reachable Legal (run (temporary.take 2)) :=
      .step h₁ (hlegal (by decide) (by decide) (by decide) (by simp))
    have h₃ : Reachable Legal (run (temporary.take 3)) :=
      .step h₂ (hlegal (by decide) (by decide) (by decide) (by simp))
    have h₄ : Reachable Legal (run (temporary.take 4)) :=
      .step h₃ (hlegal (by decide) (by decide) (by decide) (by simp))
    exact .step h₄ (hlegal (by decide) (by decide) (by decide) (by simp))
  · exact hlegal (by decide) (by decide) (by decide) (by simp)
  · have h₁ : Reachable Legal (run (externalData.take 1)) :=
      .step .start (hlegal (by decide) (by decide) (by decide) (by simp))
    have h₂ : Reachable Legal (run (externalData.take 2)) :=
      .step h₁ (hlegal (by decide) (by decide) (by decide) (by simp))
    have h₃ : Reachable Legal (run (externalData.take 3)) :=
      .step h₂ (hlegal (by decide) (by decide) (by decide) (by simp))
    have h₄ : Reachable Legal (run (externalData.take 4)) :=
      .step h₃ (hlegal (by decide) (by decide) (by decide) (by simp))
    have h₅ : Reachable Legal (run (externalData.take 5)) :=
      .step h₄ (hlegal (by decide) (by decide) (by decide) (by simp))
    exact .step h₅ (hlegal (by decide) (by decide) (by decide) (by simp))

end Bohrium.Bxx
