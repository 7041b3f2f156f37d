import Bohrium.Bxx.Lifetimes

/-! # Arrays and their references

The count of a base is the number of arrays on it, and an array is destroyed once. For every operation
of the runtime: it keeps this, and it changes the flags of the arrays in the way stated. -/
namespace Bohrium.Bxx
open Strided
set_option autoImplicit false

/-- The number of live arrays on `b`. -/
def Bridge.count (w : Bridge) (b : BhBase) : ℕ :=
  w.arrays.countP fun a => decide (a.bind (·.view.base) = some b)

/-- Whether array `x` is a temporary; `some none` when it was destroyed. -/
def Bridge.flag (w : Bridge) (x : ℕ) : Option (Option Bool) := w.arrays[x]?.map fun a => a.map (·.temp)

structure Ok (w : Bridge) : Prop where
  sound : Sound w
  refs : ∀ b, w.refCount b = w.count b
  nodup : w.destroyed.Nodup
  destroyed : ∀ x, x ∈ w.destroyed ↔ w.arrays[x]? = some none

/-- `1` when a view is on `b`. -/
def on (v : BhView) (b : BhBase) : ℤ := if v.base = some b then 1 else 0

/-- The temporaries of `xs` are deleted. -/
def sweep (xs : List ℕ) (flag : ℕ → Option (Option Bool)) : ℕ → Option (Option Bool) :=
  fun y => if y ∈ xs ∧ flag y = some (some true) then some none else flag y

theorem sweep_sweep (xs ys : List ℕ) (flag : ℕ → Option (Option Bool)) :
    sweep ys (sweep xs flag) = sweep (xs ++ ys) flag := by
  funext y
  by_cases hx : y ∈ xs
  · by_cases ht : flag y = some (some true) <;> simp [sweep, hx, ht]
  · simp [sweep, hx]

/-! ## The list of arrays -/

section

variable {w w' : Bridge} {x : ℕ} {a a' : MultiArray}

theorem getElem?_of_array? (h : w.array? x = some a) : w.arrays[x]? = some (some a) := by
  unfold Bridge.array? at h
  cases hx : w.arrays[x]? with
  | none => simp [hx] at h
  | some o => simpa [hx] using h

theorem lt_of_array? (h : w.array? x = some a) : x < w.arrays.length :=
  (List.getElem?_eq_some_iff.mp (getElem?_of_array? h)).1

theorem flag_set {o : Option MultiArray} (hx : x < w.arrays.length) (h : w'.arrays = w.arrays.set x o) :
    w'.flag = Function.update w.flag x (some (o.map (·.temp))) := by
  funext y
  rw [Bridge.flag, h]
  by_cases hy : y = x
  · subst hy
    simp [hx]
  · rw [List.getElem?_set_ne (Ne.symm hy), Function.update_of_ne hy, Bridge.flag]

theorem array?_append (h : w'.arrays = w.arrays ++ [some a]) (y : ℕ) :
    w'.array? y = if y = w.arrays.length then some a else w.array? y := by
  unfold Bridge.array?
  rw [h]
  by_cases hy : y = w.arrays.length
  · subst hy
    simp
  · rw [if_neg hy]
    by_cases hlt : y < w.arrays.length
    · rw [List.getElem?_append_left hlt]
    · rw [List.getElem?_eq_none (by simp; omega), List.getElem?_eq_none (by omega)]

theorem flag_append (h : w'.arrays = w.arrays ++ [some a]) :
    w'.flag = Function.update w.flag w.arrays.length (some (some a.temp)) := by
  funext y
  rw [Bridge.flag, h]
  by_cases hy : y = w.arrays.length
  · subst hy
    simp
  · rw [Function.update_of_ne hy, Bridge.flag]
    by_cases hlt : y < w.arrays.length
    · rw [List.getElem?_append_left hlt]
    · rw [List.getElem?_eq_none (by simp; omega), List.getElem?_eq_none (by omega)]

theorem flag_of_array? (h : w.array? x = some a) : w.flag x = some (some a.temp) := by
  rw [Bridge.flag, getElem?_of_array? h]
  rfl

theorem flag_of_le (h : w.arrays.length ≤ x) : w.flag x = none := by
  rw [Bridge.flag, List.getElem?_eq_none h]
  rfl

theorem count_set {o : Option MultiArray} (ha : w.array? x = some a) (h : w'.arrays = w.arrays.set x o)
    (b : BhBase) :
    (w'.count b : ℤ) = w.count b - on a.view b + if o.bind (·.view.base) = some b then 1 else 0 := by
  have hx := getElem?_of_array? ha
  have hlt := lt_of_array? ha
  have hget : w.arrays[x] = some a := by simpa [List.getElem?_eq_getElem hlt] using hx
  have hpos : a.view.base = some b → 0 < w.count b := by
    intro hb
    apply List.countP_pos_iff.mpr
    exact ⟨some a, hget ▸ List.getElem_mem hlt, by simp [hb]⟩
  unfold Bridge.count on at *
  rw [h, List.countP_set hlt, hget]
  by_cases hb : a.view.base = some b
  · have := hpos hb
    by_cases ho : o.bind (·.view.base) = some b <;> simp [hb, ho] <;> omega
  · by_cases ho : o.bind (·.view.base) = some b <;> simp [hb, ho]

theorem count_append (h : w'.arrays = w.arrays ++ [some a]) (b : BhBase) :
    (w'.count b : ℤ) = w.count b + on a.view b := by
  unfold Bridge.count on
  rw [h, List.countP_append]
  by_cases hb : a.view.base = some b <;> simp [hb]

theorem arrays_update (ha : w.array? x = some a) (f : MultiArray → MultiArray) :
    (w.update x f).arrays = w.arrays.set x (some (f a)) := by
  show w.arrays.modify x _ = _
  rw [List.modify_eq_set_getElem?, getElem?_of_array? ha]
  simp

end

/-! ## What keeps the invariant -/

namespace Ok

variable {w w' : Bridge} {x : ℕ} {a a' : MultiArray} {b : BhBase}

theorem refCount_pos (h : Ok w) (ha : w.array? x = some a) (hb : a.view.base = some b) : 0 < w.refCount b := by
  rw [h.refs b, Int.natCast_pos]
  apply List.countP_pos_iff.mpr
  exact ⟨some a, List.mem_of_getElem? (getElem?_of_array? ha), by simp [hb]⟩

theorem not_destroyed (h : Ok w) (ha : w.array? x = some a) : x ∉ w.destroyed := by
  rw [h.destroyed x, getElem?_of_array? ha]
  simp

/-- The arrays stay as they are. -/
theorem frame (h : Ok w) (hs : Sound w') (harrays : w'.arrays = w.arrays) (hcount : w'.refCount = w.refCount)
    (hdestroyed : w'.destroyed = w.destroyed) : Ok w' where
  sound := hs
  refs b := by
    rw [hcount, h.refs b, Bridge.count, Bridge.count, harrays]
  nodup := hdestroyed ▸ h.nodup
  destroyed x := by
    rw [hdestroyed, harrays]
    exact h.destroyed x

/-- One array gets another view. -/
theorem replace (h : Ok w) (hs : Sound w') (ha : w.array? x = some a)
    (harrays : w'.arrays = w.arrays.set x (some a'))
    (hcount : ∀ b, w'.refCount b = w.refCount b - on a.view b + on a'.view b)
    (hdestroyed : w'.destroyed = w.destroyed) : Ok w' where
  sound := hs
  refs b := by
    rw [hcount, h.refs b, count_set ha harrays]
    rfl
  nodup := hdestroyed ▸ h.nodup
  destroyed y := by
    rw [hdestroyed, h.destroyed y, harrays]
    by_cases hy : y = x
    · subst hy
      rw [getElem?_of_array? ha, List.getElem?_set_self (lt_of_array? ha)]
      simp
    · rw [List.getElem?_set_ne (Ne.symm hy)]

/-- One array more. -/
theorem append (h : Ok w) (hs : Sound w') (harrays : w'.arrays = w.arrays ++ [some a])
    (hcount : ∀ b, w'.refCount b = w.refCount b + on a.view b) (hdestroyed : w'.destroyed = w.destroyed) :
    Ok w' where
  sound := hs
  refs b := by rw [hcount, h.refs b, count_append harrays]
  nodup := hdestroyed ▸ h.nodup
  destroyed y := by
    rw [hdestroyed, h.destroyed y, harrays]
    by_cases hlt : y < w.arrays.length
    · rw [List.getElem?_append_left hlt]
    · rw [List.getElem?_append_right (by omega), List.getElem?_eq_none (by omega)]
      cases y - w.arrays.length <;> simp

/-- One array less. -/
theorem remove (h : Ok w) (hs : Sound w') (ha : w.array? x = some a) (harrays : w'.arrays = w.arrays.set x none)
    (hcount : ∀ b, w'.refCount b = w.refCount b - on a.view b)
    (hdestroyed : w'.destroyed = w.destroyed ++ [x]) : Ok w' where
  sound := hs
  refs b := by
    rw [hcount, h.refs b, count_set ha harrays]
    simp
  nodup := by
    rw [hdestroyed]
    apply List.nodup_append.mpr ⟨h.nodup, List.nodup_singleton x, _⟩
    intro y hy z hz
    rw [List.mem_singleton.mp hz]
    exact fun he => h.not_destroyed ha (he ▸ hy)
  destroyed y := by
    rw [hdestroyed, List.mem_append, h.destroyed y, harrays, List.mem_singleton]
    by_cases hy : y = x
    · subst hy
      simp [lt_of_array? ha]
    · rw [List.getElem?_set_ne (Ne.symm hy)]
      simp [hy]

end Ok

/-! ## The operations of the runtime -/

section

variable {w : Bridge} {x y : ℕ} {a : MultiArray} {b : BhBase}

theorem refCount_drop (w : Bridge) (checked : Bool) (v : BhView) (b : BhBase) :
    (w.dropReference checked v).refCount b = w.refCount b - on v b := by
  cases hv : v.base with
  | none => simp [Bridge.dropReference, hv, on]
  | some c =>
    rw [w.refCount_dropReference checked v c hv]
    by_cases hc : b = c
    · subst hc
      simp [on, hv]
    · simp [on, hv, Function.update_of_ne hc, Ne.symm hc]

theorem refCount_add (w : Bridge) (v : BhView) (b : BhBase) :
    (w.addReference v).refCount b = w.refCount b + on v b := by
  cases hv : v.base with
  | none => simp [Bridge.addReference, hv, on]
  | some c =>
    by_cases hc : b = c
    · subst hc
      simp [Bridge.addReference, hv, on]
    · simp [Bridge.addReference, hv, on, Function.update_of_ne hc, Ne.symm hc]

@[simp] theorem arrays_addReference (v : BhView) : (w.addReference v).arrays = w.arrays := by
  unfold Bridge.addReference
  split <;> rfl

@[simp] theorem destroyed_addReference (v : BhView) : (w.addReference v).destroyed = w.destroyed := by
  unfold Bridge.addReference
  split <;> rfl

theorem flag_of_arrays {w' : Bridge} (h : w'.arrays = w.arrays) : w'.flag = w.flag := by
  funext y
  rw [Bridge.flag, Bridge.flag, h]

@[simp] theorem flag_push (i : BhInstruction) : (w.push i).flag = w.flag := flag_of_arrays (w.arrays_push i)

@[simp] theorem flag_flush : w.flush.flag = w.flag := flag_of_arrays w.arrays_flush

theorem isTemp_eq (w : Bridge) (x : ℕ) : w.isTemp x = decide (w.flag x = some (some true)) := by
  unfold Bridge.isTemp Bridge.flag Bridge.array?
  cases w.arrays[x]? with
  | none => rfl
  | some o => cases o <;> simp

theorem view_eq (ha : w.array? x = some a) : w.view x = a.view := by
  simp [Bridge.view, ha]

theorem base?_eq (ha : w.array? x = some a) : w.base? x = a.view.base := by
  simp [Bridge.base?, view_eq ha]

theorem array?_of_base? (hb : w.base? x = some b) : ∃ a, w.array? x = some a ∧ a.view.base = some b := by
  cases ha : w.array? x with
  | none => simp [Bridge.base?, Bridge.view, ha] at hb
  | some a => exact ⟨a, rfl, by rwa [base?_eq ha] at hb⟩

namespace Ok

theorem flush (h : Ok w) : Ok w.flush := h.frame h.sound.flush w.arrays_flush w.refCount_flush w.destroyed_flush

theorem base?_pos (h : Ok w) (hb : w.base? x = some b) : 0 < w.refCount b := by
  obtain ⟨a, ha, hv⟩ := array?_of_base? hb
  exact h.refCount_pos ha hv

theorem push (h : Ok w) {i : BhInstruction} (hfree : i.opcode ≠ .free) (hdiscard : i.opcode ≠ .discard)
    (hi : ∀ b, uses i b = true → ∃ x, w.base? x = some b) : Ok (w.push i) := by
  refine h.frame (h.sound.push hfree hdiscard fun b hb => ?_) (w.arrays_push i) (w.refCount_push i)
    (w.destroyed_push i)
  obtain ⟨x, hx⟩ := hi b hb
  exact h.base?_pos hx

/-- The reference of one array goes. -/
theorem sound_drop (h : Ok w) {checked : Bool} (ha : w.array? x = some a)
    (hchecked : ∀ b, a.view.base = some b → w.refCount b = 1 → w.external b = true → checked = true) :
    Sound (w.dropReference checked a.view) := by
  cases hv : a.view.base with
  | none =>
    simp only [Bridge.dropReference, hv]
    exact h.sound
  | some b => exact h.sound.dropReference hv (h.refCount_pos ha hv) (hchecked b hv)

theorem sound_add (h : Ok w) (ha : w.array? x = some a) : Sound (w.addReference a.view) := by
  cases hv : a.view.base with
  | none =>
    simp only [Bridge.addReference, hv]
    exact h.sound
  | some b => exact h.sound.addReference hv (h.refCount_pos ha hv)

theorem destroy (h : Ok w) (ha : w.array? x = some a) : Ok (w.destroy x) := by
  have hs : Sound (w.dropReference true a.view) := h.sound_drop ha fun _ _ _ _ => rfl
  unfold Bridge.destroy
  rw [view_eq ha]
  apply h.remove _ ha
  · simp
  · intro b
    exact refCount_drop w true a.view b
  · simp
  · exact ⟨⟨hs.collected.garbage, hs.collected.nodup, hs.collected.queued, hs.collected.room⟩, hs.nonneg,
      hs.live, hs.gone, hs.fresh⟩

end Ok

theorem flag_destroy (hx : x < w.arrays.length) : (w.destroy x).flag = Function.update w.flag x (some none) :=
  flag_set (o := none) hx (by simp [Bridge.destroy])

theorem Ok.deleteTemp (h : Ok w) (x : ℕ) : Ok (w.deleteTemp x) := by
  unfold Bridge.deleteTemp
  split
  · rename_i ht
    cases ha : w.array? x with
    | none => simp [Bridge.isTemp, ha] at ht
    | some a => exact h.destroy ha
  · exact h

theorem flag_deleteTemp (w : Bridge) (x : ℕ) : (w.deleteTemp x).flag = sweep [x] w.flag := by
  unfold Bridge.deleteTemp
  by_cases ht : w.flag x = some (some true)
  · have hlt : x < w.arrays.length := by
      by_contra hle
      rw [flag_of_le (by omega)] at ht
      cases ht
    rw [isTemp_eq, if_pos (by simpa using ht), flag_destroy hlt]
    funext y
    by_cases hy : y = x
    · subst hy
      simp [sweep, ht]
    · simp [sweep, hy]
  · rw [isTemp_eq, if_neg (by simpa using ht)]
    funext y
    by_cases hy : y = x
    · subst hy
      simp [sweep, ht]
    · simp [sweep, hy]

/-- The bases of an instruction are those of the operands. -/
theorem uses_operands {opcode : BhOpcode} {x₀ : ℕ} {x₁ x₂ : Option ℕ} {c : BhConstant}
    (hu : uses ⟨opcode, w.view x₀, (x₁.map w.view).getD ⟨none, 0, []⟩, (x₂.map w.view).getD ⟨none, 0, []⟩, c⟩ b = true) :
    ∃ x, w.base? x = some b := by
  simp only [uses, decide_eq_true_eq] at hu
  obtain hu | hu | hu := hu
  · exact ⟨x₀, hu⟩
  · cases x₁ with
    | none => simp at hu
    | some x₁ => exact ⟨x₁, hu⟩
  · cases x₂ with
    | none => simp at hu
    | some x₂ => exact ⟨x₂, hu⟩

theorem Ok.deleteOperand (h : Ok w) (x? : Option ℕ) : Ok (x?.elim w w.deleteTemp) := by
  cases x? with
  | none => exact h
  | some x => exact h.deleteTemp x

theorem flag_deleteOperand (w : Bridge) (x? : Option ℕ) :
    (x?.elim w w.deleteTemp).flag = sweep x?.toList w.flag := by
  cases x? with
  | none =>
    funext y
    simp [sweep]
  | some x => exact flag_deleteTemp w x

theorem Ok.enqueue (h : Ok w) {opcode : BhOpcode} (hfree : opcode ≠ .free) (hdiscard : opcode ≠ .discard)
    (x₀ : ℕ) (x₁ x₂ : Option ℕ) (c : BhConstant) : Ok (w.enqueue opcode x₀ x₁ x₂ c) := by
  have hpush := h.push (i := ⟨opcode, w.view x₀, (x₁.map w.view).getD ⟨none, 0, []⟩,
    (x₂.map w.view).getD ⟨none, 0, []⟩, c⟩) hfree hdiscard fun b hb => uses_operands hb
  apply Ok.deleteOperand
  apply Ok.deleteOperand
  split
  · exact hpush
  · exact hpush.deleteTemp x₀

theorem flag_enqueue (w : Bridge) (opcode : BhOpcode) (x₀ : ℕ) (x₁ x₂ : Option ℕ) (c : BhConstant) :
    (w.enqueue opcode x₀ x₁ x₂ c).flag = sweep (x₀ :: (x₁.toList ++ x₂.toList)) w.flag := by
  unfold Bridge.enqueue
  rw [flag_deleteOperand, flag_deleteOperand, sweep_sweep]
  split
  · -- the first operand is the second one too, and is deleted there
    rename_i hor
    rw [flag_push]
    have hmem : x₀ ∈ x₁.toList ++ x₂.toList := by
      cases x₁ with
      | none => simpa using hor
      | some x₁ => simp [show x₁ = x₀ by simpa using hor]
    funext y
    by_cases hy : y = x₀
    · subst hy
      simp only [sweep, hmem, List.mem_cons_self]
    · simp only [sweep, List.mem_cons, hy, false_or]
  · rw [flag_deleteTemp, flag_push, sweep_sweep]
    rfl

/-! ## New arrays and new views -/

theorem Sound.of_arrays (h : Sound w) (arrays : List (Option MultiArray)) : Sound { w with arrays := arrays } :=
  ⟨⟨h.collected.garbage, h.collected.nodup, h.collected.queued, h.collected.room⟩, h.nonneg, h.live, h.gone, h.fresh⟩

theorem Ok.construct (h : Ok w) (hv : a.view.base = none) : Ok (w.construct a).1 :=
  h.append (h.sound.of_arrays _) rfl (fun b => by simp [on, hv, Bridge.construct]) rfl

/-- An array on the base of another one. -/
theorem Ok.constructOn (h : Ok w) (ha : w.array? x = some a) {a' : MultiArray} (hv : a'.view.base = a.view.base) :
    Ok ((w.addReference a.view).construct a').1 := by
  have hs := h.sound_add ha
  apply h.append (a := a') (hs.of_arrays _)
  · simp
  · intro b
    show (w.addReference a.view).refCount b = _
    rw [refCount_add, on, on, hv]
  · simp

theorem tempView_eq (ha : w.array? x = some a) (start : ℤ) (dims : List Dim) (sliceDim : ℤ) :
    w.tempView x start dims sliceDim = (w.addReference a.view).construct
      ⟨a.type, ⟨a.view.base, start, dims⟩, true, sliceDim⟩ := by
  simp [Bridge.tempView, ha]

theorem Ok.tempView (h : Ok w) (ha : w.array? x = some a) (start : ℤ) (dims : List Dim) (sliceDim : ℤ) :
    Ok (w.tempView x start dims sliceDim).1 := by
  rw [tempView_eq ha]
  exact h.constructOn ha rfl

theorem tempView_snd (ha : w.array? x = some a) (start : ℤ) (dims : List Dim) (sliceDim : ℤ) :
    (w.tempView x start dims sliceDim).2 = w.arrays.length := by
  simp [tempView_eq ha, Bridge.construct]

theorem arrays_tempView (ha : w.array? x = some a) (start : ℤ) (dims : List Dim) (sliceDim : ℤ) :
    (w.tempView x start dims sliceDim).1.arrays =
      w.arrays ++ [some ⟨a.type, ⟨a.view.base, start, dims⟩, true, sliceDim⟩] := by
  simp [tempView_eq ha, Bridge.construct]

theorem flag_tempView (ha : w.array? x = some a) (start : ℤ) (dims : List Dim) (sliceDim : ℤ) :
    (w.tempView x start dims sliceDim).1.flag = Function.update w.flag w.arrays.length (some (some true)) :=
  flag_append (arrays_tempView ha start dims sliceDim)

/-- A change that keeps the base. -/
theorem Ok.update (h : Ok w) (ha : w.array? x = some a) {f : MultiArray → MultiArray}
    (hf : (f a).view.base = a.view.base) : Ok (w.update x f) := by
  apply h.replace (h.sound.of_arrays _) ha (arrays_update ha f)
  · intro b
    show w.refCount b = _
    rw [on, on, hf]
    omega
  · rfl

theorem flag_setTemp (ha : w.array? x = some a) (temp : Bool) :
    (w.setTemp x temp).flag = Function.update w.flag x (some (some temp)) :=
  flag_set (o := some { a with temp := temp }) (lt_of_array? ha) (arrays_update ha _)

theorem arrays_link (ha : w.array? x = some a) : (w.link x).arrays = w.arrays.set x
    (some { a with view := { a.view with base := some ⟨w.nextBase, a.type, bhNelements a.view⟩ } }) := by
  simp only [Bridge.link, ha]
  exact arrays_update ha _

theorem Ok.link (h : Ok w) (ha : w.array? x = some a) (hv : a.view.base = none) : Ok (w.link x) := by
  have hs := (h.sound.create (b := ⟨w.nextBase, a.type, bhNelements a.view⟩) rfl).of_arrays (w.link x).arrays
  apply h.replace _ ha (arrays_link ha)
  · intro b
    simp only [Bridge.link, ha, on, hv]
    by_cases hb : b = ⟨w.nextBase, a.type, bhNelements a.view⟩
    · subst hb
      simp
    · simp [Function.update_of_ne hb, Ne.symm hb]
  · simp [Bridge.link, ha, Bridge.update]
  · simp only [Bridge.link, ha] at hs ⊢
    exact hs

theorem flag_link (ha : w.array? x = some a) : (w.link x).flag = w.flag := by
  rw [flag_set (lt_of_array? ha) (arrays_link ha)]
  exact Function.update_eq_self_iff.mpr (flag_of_array? ha).symm

/-- The result array of an operation. -/
theorem newResult_spec (h : Ok w) (type : BhType) (shape : BhView) :
    Ok (w.newResult type shape).1 ∧ (w.newResult type shape).2 = w.arrays.length ∧
      (w.newResult type shape).1.flag = Function.update w.flag w.arrays.length (some (some false)) := by
  have hnew : (w.construct { type := type, view := copied shape }).1.array? w.arrays.length =
      some { type := type, view := copied shape } := by
    rw [array?_append (w := w) rfl, if_pos rfl]
  refine ⟨(h.construct rfl).link hnew rfl, rfl, ?_⟩
  exact (flag_link hnew).trans (flag_append (w := w) (a := { type := type, view := copied shape }) rfl)

/-- The aliasing branch of `operator=`. -/
theorem Ok.alias (h : Ok w) {a' : MultiArray} (ha : w.array? x = some a) (ha' : w.array? y = some a')
    (hne : w.base? x = none ∨ w.base? x ≠ w.base? y)
    (hext : ∀ b, w.base? x = some b → w.refCount b = 1 → w.external b = false) :
    Ok (((w.dropReference false (w.view x)).update x fun a => { a with view := w.view y }).addReference (w.view y)) ∧
      (((w.dropReference false (w.view x)).update x fun a => { a with view := w.view y }).addReference
        (w.view y)).flag = w.flag := by
  rw [base?_eq ha, base?_eq ha'] at hne
  rw [base?_eq ha] at hext
  rw [view_eq ha, view_eq ha']
  have hdrop : Sound (w.dropReference false a.view) := by
    apply h.sound_drop ha
    intro b hb hone hexternal
    rw [hext b hb hone] at hexternal
    cases hexternal
  have hd : (w.dropReference false a.view).array? x = some a := by
    rw [Bridge.array?, Bridge.arrays_dropReference]
    exact ha
  -- the other base has kept its references
  have hadd : Sound ((w.dropReference false a.view).addReference a'.view) := by
    cases hv : a'.view.base with
    | none =>
      simp only [Bridge.addReference, hv]
      exact hdrop
    | some b =>
      apply hdrop.addReference hv
      have hoff : on a.view b = 0 := by
        rw [on, if_neg]
        intro hb
        obtain hnone | hdiff := hne
        · rw [hnone] at hb
          cases hb
        · exact hdiff (hb.trans hv.symm)
      rw [refCount_drop, hoff, Int.sub_zero]
      exact h.refCount_pos ha' hv
  have hcomm : ((w.dropReference false a.view).update x fun a => { a with view := a'.view }).addReference a'.view =
      { (w.dropReference false a.view).addReference a'.view with
        arrays := ((w.dropReference false a.view).update x fun a => { a with view := a'.view }).arrays } := by
    unfold Bridge.addReference
    split <;> rfl
  have harrays : (((w.dropReference false a.view).update x fun a => { a with view := a'.view }).addReference
      a'.view).arrays = w.arrays.set x (some { a with view := a'.view }) := by
    rw [arrays_addReference, arrays_update hd, Bridge.arrays_dropReference]
  constructor
  · apply h.replace _ ha harrays
    · intro b
      rw [hcomm]
      show ((w.dropReference false a.view).addReference a'.view).refCount b = _
      rw [refCount_add, refCount_drop]
    · simp [Bridge.update]
    · rw [hcomm]
      exact hadd.of_arrays _
  · rw [flag_set (lt_of_array? ha) harrays]
    exact Function.update_eq_self_iff.mpr (flag_of_array? ha).symm

end

end Bohrium.Bxx
