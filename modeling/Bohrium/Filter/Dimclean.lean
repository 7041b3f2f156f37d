import Bohrium.Semantics.Loop

/-! # The dimclean filter

`filter/dimclean/filter.cpp` takes the dimensions of length one out of every view, in place, and
moves the axis of a sweep along; a sweep over an axis of length one becomes a copy. -/
namespace Bohrium
open Strided
set_option autoImplicit false

namespace Dimclean

/-! ## The filter -/

/-- What the loop over the dimensions of operand `o` changes. `cells` are the first `ndim` cells of
`view.shape` and `view.stride` as the loop found them, `ndim` is `view.ndim`. -/
structure Scan where
  opcode : BhOpcode
  constant : BhConstant
  cells : List Dim
  ndim : ℕ
  ii : ℕ
  deriving DecidableEq, Repr

/-- `--instr.constant.value.int64`. -/
def decr : BhConstant → BhConstant
  | .int type v => .int type (v - 1)
  | c => c

/-- One turn of the loop over the dimensions. -/
def scanDim (sweep : Bool) (o : ℕ) (s : Scan) (i : ℕ) : Scan :=
  match s.cells[i]? with
  | none => s
  | some d =>
    if d.shape = 0 then { s with opcode := .none }
    else if d.shape = 1 then
      { s with
        ndim := if 1 < s.ndim then s.ndim - 1 else s.ndim
        constant := if sweep ∧ o = 1 ∧ s.ii < s.constant.int64 then decr s.constant else s.constant }
    else if s.ii < i then { s with cells := s.cells.set s.ii d, ii := s.ii + 1 }
    else { s with ii := s.ii + 1 }

/-- The state of the loop over the operands. -/
structure Pass where
  opcode : BhOpcode
  constant : BhConstant
  sweep : Bool
  deriving DecidableEq, Repr

/-- `view.shape[instr.constant.value.int64] == 1`. -/
def axisIsOne (c : BhConstant) (v : BhView) : Bool :=
  0 ≤ c.int64 && (v.dims[c.int64.toNat]?.map Dim.shape == some 1)

/-- The loop over the dimensions of an operand; a constant has none. -/
def scanView (o : ℕ) (p : Pass) (v : BhView) : Pass × BhView :=
  if v.base.isSome then
    let s := (List.range v.ndim).foldl (scanDim p.sweep o) ⟨p.opcode, p.constant, v.dims, v.ndim, 0⟩
    ({ p with opcode := s.opcode, constant := s.constant }, { v with dims := s.cells.take s.ndim })
  else (p, v)

/-- One turn of the loop over the operands. -/
def cleanOperand (o : ℕ) (p : Pass) (v : BhView) : Pass × BhView :=
  scanView o (if p.sweep ∧ o = 1 ∧ axisIsOne p.constant v then { p with opcode := .identity, sweep := false } else p) v

/-- The body of `filter`; `nop` is the number of operands of the opcode before the pass. -/
def cleanInstr (i : BhInstruction) : BhInstruction :=
  let nop := bhOperands i.opcode
  let p : Pass := ⟨i.opcode, i.constant, bhOpcodeIsSweep i.opcode⟩
  let r0 := if 0 < nop then cleanOperand 0 p i.operand0 else (p, i.operand0)
  let r1 := if 1 < nop then cleanOperand 1 r0.1 i.operand1 else (r0.1, i.operand1)
  let r2 := if 2 < nop then cleanOperand 2 r1.1 i.operand2 else (r1.1, i.operand2)
  ⟨r2.1.opcode, r0.2, r1.2, r2.2, r2.1.constant⟩

/-- `filter`. -/
def filter (l : List BhInstruction) : List BhInstruction := l.map cleanInstr

/-! ## What the loops leave -/

/-- The dimensions that stay. -/
def kept (ds : List Dim) : List Dim := ds.filter (·.shape ≠ 1)

/-- The dimensions of a cleaned view: those not of length one, or the first when there are none. -/
def clean (ds : List Dim) : List Dim := if kept ds = [] then ds.take 1 else kept ds

theorem kept_append (ds es : List Dim) : kept (ds ++ es) = kept ds ++ kept es := List.filter_append ds es

/-- The scan before turn `k`: finished cells first, cells not yet read behind. -/
structure Scanned (sweep : Bool) (o : ℕ) (start : Scan) (ds : List Dim) (k : ℕ) (s : Scan) : Prop where
  opcode : s.opcode = start.opcode
  finished : s.cells.take s.ii = kept (ds.take k)
  ii : s.ii = (kept (ds.take k)).length
  unread : s.cells.drop k = ds.drop k
  untouched : s.ii = 0 → s.cells = ds
  ndim : s.ndim = max 1 (ds.length - (k - s.ii))
  other : ¬ (sweep = true ∧ o = 1) → s.constant = start.constant

theorem length_kept_take_le (ds : List Dim) (k : ℕ) : (kept (ds.take k)).length ≤ k :=
  (List.length_filter_le _ _).trans (List.length_take_le _ _)

theorem kept_take_succ {ds : List Dim} {k : ℕ} {d : Dim} (h : ds[k]? = some d) :
    kept (ds.take (k + 1)) = kept (ds.take k) ++ if d.shape = 1 then [] else [d] := by
  rw [List.take_add_one, h, kept_append]
  by_cases hd : d.shape = 1 <;> simp [kept, hd]

theorem Scanned.cell {sweep : Bool} {o : ℕ} {start s : Scan} {ds : List Dim} {k : ℕ} (hk : k < ds.length)
    (h : Scanned sweep o start ds k s) : s.cells[k]? = some ds[k] := by
  have hhead := congrArg List.head? h.unread
  rwa [List.head?_drop, List.head?_drop, List.getElem?_eq_getElem hk] at hhead

theorem Scanned.step {sweep : Bool} {o : ℕ} {start s : Scan} {ds : List Dim} {k : ℕ} (hk : k < ds.length)
    (hne : ∀ d ∈ ds, d.shape ≠ 0) (h : Scanned sweep o start ds k s) :
    Scanned sweep o start ds (k + 1) (scanDim sweep o s k) := by
  have hle := length_kept_take_le ds k
  rw [← h.ii] at hle
  have hget : ds[k]? = some ds[k] := List.getElem?_eq_getElem hk
  have hcell := h.cell hk
  have hdrop : s.cells.drop (k + 1) = ds.drop (k + 1) := by
    rw [← List.drop_drop, h.unread, List.drop_drop]
  have hlen : k < s.cells.length := (List.getElem?_eq_some_iff.mp hcell).1
  have hkept := kept_take_succ hget
  have h0 := hne ds[k] (List.getElem_mem hk)
  unfold scanDim
  rw [hcell]
  dsimp only
  rw [if_neg h0]
  by_cases hone : ds[k].shape = 1
  · rw [if_pos hone]
    rw [if_pos hone, List.append_nil] at hkept
    refine ⟨h.opcode, ?_, ?_, hdrop, h.untouched, ?_, ?_⟩
    · rw [hkept]; exact h.finished
    · rw [hkept]; exact h.ii
    · have hndim := h.ndim
      dsimp only
      split_ifs <;> omega
    · intro hs
      dsimp only
      rw [if_neg (fun hc => hs ⟨hc.1, hc.2.1⟩)]
      exact h.other hs
  · rw [if_neg hone]
    rw [if_neg hone] at hkept
    have hii : s.ii + 1 = (kept (ds.take (k + 1))).length := by rw [hkept, List.length_append, ← h.ii]; rfl
    have hndim : s.ndim = max 1 (ds.length - (k + 1 - (s.ii + 1))) := by
      rw [h.ndim, Nat.add_sub_add_right]
    by_cases hlt : s.ii < k
    · rw [if_pos hlt]
      refine ⟨h.opcode, ?_, hii, ?_, fun hz => absurd hz (Nat.succ_ne_zero _), hndim, h.other⟩
      · dsimp only
        rw [hkept, List.take_add_one, List.take_set_of_le (le_refl _), h.finished,
          List.getElem?_set_self (by omega)]
        rfl
      · dsimp only
        rw [List.drop_set_of_lt (by omega), hdrop]
    · rw [if_neg hlt]
      obtain rfl : s.ii = k := by omega
      refine ⟨h.opcode, ?_, hii, hdrop, fun hz => absurd hz (Nat.succ_ne_zero _), hndim, h.other⟩
      dsimp only
      rw [hkept, List.take_add_one, h.finished, hcell]
      rfl

/-- The axis before turn `k`: it moves down with every dimension that is taken out before it. -/
def Followed (ds : List Dim) (a k : ℕ) (s : Scan) : Prop :=
  ∃ type, s.constant = .int type (if k ≤ a then (a : ℤ) - (k - s.ii) else (kept (ds.take a)).length)

theorem Followed.step {start s : Scan} {ds : List Dim} {a k : ℕ} (hk : k < ds.length)
    (hne : ∀ d ∈ ds, d.shape ≠ 0) (ha : ∃ d, ds[a]? = some d ∧ d.shape ≠ 1) (hs : Scanned true 1 start ds k s)
    (h : Followed ds a k s) : Followed ds a (k + 1) (scanDim true 1 s k) := by
  obtain ⟨e, he, hae⟩ := ha
  obtain ⟨type, hc⟩ := h
  have hget : ds[k]? = some ds[k] := List.getElem?_eq_getElem hk
  have hcell := hs.cell hk
  have hle := length_kept_take_le ds k
  rw [← hs.ii] at hle
  have h0 := hne ds[k] (List.getElem_mem hk)
  -- the kept dimensions behind the axis lie above it
  have habove : a < k → (kept (ds.take a)).length < s.ii := by
    intro hlt
    have hsub : List.Sublist (kept (ds.take (a + 1))) (kept (ds.take k)) := (List.take_sublist_take_left hlt).filter _
    have hlen := hsub.length_le
    rw [kept_take_succ he, if_neg hae, List.length_append, ← hs.ii] at hlen
    exact hlen
  unfold scanDim
  rw [hcell]
  dsimp only
  rw [if_neg h0]
  by_cases hone : ds[k].shape = 1
  · rw [if_pos hone]
    have hka : k ≠ a := by
      rintro rfl
      rw [hget] at he
      exact hae (Option.some.inj he ▸ hone)
    refine ⟨type, ?_⟩
    dsimp only
    rw [hc]
    by_cases hlt : k < a
    · rw [if_pos hlt.le, if_pos ⟨rfl, rfl, by simp only [BhConstant.int64]; omega⟩, if_pos (Nat.succ_le_of_lt hlt)]
      simp only [decr, BhConstant.int.injEq, true_and]
      omega
    · have hab := habove (by omega)
      rw [if_neg (show ¬ k ≤ a by omega), if_neg (show ¬ k + 1 ≤ a by omega),
        if_neg (fun hc => absurd hc.2.2 (by simp only [BhConstant.int64]; omega))]
  · rw [if_neg hone]
    have hnext : BhConstant.int type (if k ≤ a then (a : ℤ) - (k - s.ii) else (kept (ds.take a)).length) =
        .int type (if k + 1 ≤ a then (a : ℤ) - ((k + 1 : ℕ) - (s.ii + 1 : ℕ)) else (kept (ds.take a)).length) := by
      congr 1
      have hii := hs.ii
      split_ifs with h₁ h₂ h₂
      · omega
      · obtain rfl : k = a := by omega
        omega
      · omega
      · rfl
    by_cases hlt : s.ii < k
    · rw [if_pos hlt]
      exact ⟨type, hc.trans hnext⟩
    · rw [if_neg hlt]
      exact ⟨type, hc.trans hnext⟩

section Loop
variable {sweep : Bool} {o : ℕ} {opcode : BhOpcode} {constant : BhConstant} {ds : List Dim}

theorem scanned_start (hds : ds ≠ []) :
    Scanned sweep o ⟨opcode, constant, ds, ds.length, 0⟩ ds 0 ⟨opcode, constant, ds, ds.length, 0⟩ := by
  have hlen := List.length_pos_of_ne_nil hds
  refine ⟨rfl, rfl, rfl, rfl, fun _ => rfl, ?_, fun _ => rfl⟩
  dsimp only
  omega

theorem scanned_foldl (hds : ds ≠ []) (hne : ∀ d ∈ ds, d.shape ≠ 0) (k : ℕ) (hk : k ≤ ds.length) :
    Scanned sweep o ⟨opcode, constant, ds, ds.length, 0⟩ ds k
      ((List.range k).foldl (scanDim sweep o) ⟨opcode, constant, ds, ds.length, 0⟩) := by
  induction k with
  | zero => exact scanned_start hds
  | succ k ih =>
    rw [List.range_succ, List.foldl_append]
    exact (ih (by omega)).step hk hne

theorem followed_foldl {type : BhType} {a : ℕ} (hne : ∀ d ∈ ds, d.shape ≠ 0)
    (ha : ∃ d, ds[a]? = some d ∧ d.shape ≠ 1) (k : ℕ) (hk : k ≤ ds.length) :
    Followed ds a k ((List.range k).foldl (scanDim true 1) ⟨opcode, .int type a, ds, ds.length, 0⟩) := by
  induction k with
  | zero => exact ⟨type, by simp⟩
  | succ k ih =>
    have hds : ds ≠ [] := List.ne_nil_of_length_pos (by omega)
    rw [List.range_succ, List.foldl_append]
    exact (ih (by omega)).step hk hne ha (scanned_foldl hds hne k (by omega))

/-- The loop over the dimensions of a view. -/
theorem scan_spec (sweep : Bool) (o : ℕ) (opcode : BhOpcode) (constant : BhConstant) (hne : ∀ d ∈ ds, d.shape ≠ 0) :
    let s := (List.range ds.length).foldl (scanDim sweep o) ⟨opcode, constant, ds, ds.length, 0⟩
    s.opcode = opcode ∧ s.cells.take s.ndim = clean ds ∧ (¬ (sweep = true ∧ o = 1) → s.constant = constant) := by
  intro s
  by_cases hds : ds = []
  · subst hds
    exact ⟨rfl, rfl, fun _ => rfl⟩
  have h : Scanned sweep o _ ds ds.length s := scanned_foldl hds hne ds.length le_rfl
  have hpos := List.length_pos_of_ne_nil hds
  have hfin := h.finished
  have hii := h.ii
  rw [List.take_length] at hfin hii
  have hle : (kept ds).length ≤ ds.length := List.length_filter_le _ _
  refine ⟨h.opcode, ?_, h.other⟩
  unfold clean
  by_cases hkept : kept ds = []
  · rw [hkept, List.length_nil] at hii
    rw [if_pos hkept, h.ndim, h.untouched hii, hii]
    simp
  · have hkpos := List.length_pos_of_ne_nil hkept
    have hndim : s.ndim = s.ii := by
      rw [h.ndim]
      omega
    rw [if_neg hkept, hndim, hfin]

/-- The loop over the dimensions of the input of a sweep. -/
theorem scan_axis (opcode : BhOpcode) (type : BhType) {a : ℕ} (hne : ∀ d ∈ ds, d.shape ≠ 0)
    (ha : ∃ d, ds[a]? = some d ∧ d.shape ≠ 1) :
    ∃ type', ((List.range ds.length).foldl (scanDim true 1) ⟨opcode, .int type a, ds, ds.length, 0⟩).constant =
      .int type' (kept (ds.take a)).length := by
  obtain ⟨type', h⟩ : Followed ds a ds.length ((List.range ds.length).foldl (scanDim true 1)
      ⟨opcode, .int type a, ds, ds.length, 0⟩) := followed_foldl hne ha ds.length le_rfl
  obtain ⟨d, hd, _⟩ := ha
  have hlt := (List.getElem?_eq_some_iff.mp hd).1
  rw [if_neg (by omega)] at h
  exact ⟨type', h⟩

end Loop

/-! ## Views -/

/-- A cleaned operand; constants stay as they are. -/
def cleanView (v : BhView) : BhView := if v.base.isSome then { v with dims := clean v.dims } else v

theorem cleanView_of_base {v : BhView} (h : v.base.isSome) : cleanView v = { v with dims := clean v.dims } := if_pos h

theorem offsets_kept (s : ℤ) (ds : List Dim) : Strided.offsets s (kept ds) = Strided.offsets s ds := by
  induction ds generalizing s with
  | nil => rfl
  | cons d ds ih =>
    by_cases hd : d.shape = 1
    · rw [offsets_one s d ds hd, ← ih]
      simp [kept, hd]
    · have hcons : kept (d :: ds) = d :: kept ds := by simp [kept, hd]
      rw [hcons, offsets_cons, offsets_cons]
      exact List.flatMap_congr fun i _ => ih _

theorem offsets_clean (s : ℤ) (ds : List Dim) : Strided.offsets s (clean ds) = Strided.offsets s ds := by
  unfold clean
  split_ifs with h
  · have hone : ∀ d ∈ ds, d.shape = 1 := by simpa [kept] using h
    rw [← offsets_kept s ds, h]
    cases ds with
    | nil => rfl
    | cons d ds => exact offsets_one s d [] (hone d List.mem_cons_self)
  · exact offsets_kept s ds

theorem clean_no_ones (ds : List Dim) : (clean ds).length = 1 ∨ ∀ d ∈ clean ds, d.shape ≠ 1 := by
  unfold clean
  split_ifs
  · cases ds with
    | nil => exact Or.inr nofun
    | cons d ds => exact Or.inl rfl
  · refine Or.inr fun d hd => ?_
    simpa using (List.mem_filter.mp hd).2

/-- The shape of a cleaned view, from its shape. -/
def cleanShape (ns : List ℕ) : List ℕ := if ns.filter (· ≠ 1) = [] then ns.take 1 else ns.filter (· ≠ 1)

theorem map_shape_clean (ds : List Dim) : (clean ds).map Dim.shape = cleanShape (ds.map Dim.shape) := by
  have hkept : (ds.map Dim.shape).filter (· ≠ 1) = (kept ds).map Dim.shape := by
    rw [List.filter_map]
    rfl
  unfold clean cleanShape
  rw [hkept]
  by_cases hnil : kept ds = []
  · rw [if_pos hnil, if_pos (by rw [hnil]; rfl), List.map_take]
  · rw [if_neg hnil, if_neg (fun h => hnil (List.map_eq_nil_iff.mp h))]

/-- A dimension of length one may be taken out first. -/
theorem cleanShape_eraseIdx {ns : List ℕ} {a : ℕ} (ha : ns[a]? = some 1) (h2 : ns.length ≠ 1) :
    cleanShape (ns.eraseIdx a) = cleanShape ns := by
  have hfilter : (ns.eraseIdx a).filter (· ≠ 1) = ns.filter (· ≠ 1) := by
    induction ns generalizing a with
    | nil => rfl
    | cons n ns ih =>
      cases a with
      | zero =>
        obtain rfl : n = 1 := by simpa using ha
        simp
      | succ a =>
        rw [List.eraseIdx_cons_succ, List.filter_cons, List.filter_cons]
        by_cases hns : ns.length = 1
        · obtain ⟨m, rfl⟩ := List.length_eq_one_iff.mp hns
          cases a with
          | zero =>
            obtain rfl : m = 1 := by simpa using ha
            simp
          | succ a => simp at ha
        · rw [ih (by simpa using ha) hns]
  unfold cleanShape
  rw [hfilter]
  split_ifs with hnil
  · have hone : ∀ n ∈ ns, n = 1 := by simpa using hnil
    obtain _ | ⟨n, _ | ⟨m, ns⟩⟩ := ns
    · simp at ha
    · simp at h2
    · obtain rfl := hone n (by simp)
      obtain rfl := hone m (by simp)
      cases a <;> simp
  · rfl

/-- Taking a coordinate of a dimension of length one out keeps the order of the index tuples. -/
theorem map_eraseIdx_indices {ns : List ℕ} {a : ℕ} (ha : ns[a]? = some 1) :
    (indices ns).map (·.eraseIdx a) = indices (ns.eraseIdx a) := by
  induction ns generalizing a with
  | nil => simp at ha
  | cons n ns ih =>
    cases a with
    | zero =>
      obtain rfl : n = 1 := by simpa using ha
      simp [indices, Function.comp_def]
    | succ a =>
      rw [List.eraseIdx_cons_succ, indices, indices, List.map_flatMap, ← ih (by simpa using ha)]
      refine List.flatMap_congr fun i _ => ?_
      rw [List.map_map, List.map_map]
      rfl

/-! ## Instructions -/

/-- The three places for operands. -/
def slots (i : BhInstruction) : List BhView := [i.operand0, i.operand1, i.operand2]

/-- The axis of a sweep is a dimension of its input, and the input is an array. -/
def ValidAxis (i : BhInstruction) : Prop :=
  i.operand1.base.isSome ∧ ∃ type, i.constant = .int type i.axis ∧ i.axis < i.operand1.ndim

/-- No array operand has a dimension of length zero, and the axes of sweeps are valid. -/
structure Input (i : BhInstruction) : Prop where
  nonempty : ∀ v ∈ i.operands, v.base.isSome → ∀ d ∈ v.dims, d.shape ≠ 0
  axis : bhOpcodeIsSweep i.opcode = true → ValidAxis i

/-- The length of the axis of a sweep. -/
def axisLength (i : BhInstruction) : Option ℕ := i.operand1.shape[i.axis]?

theorem scanView_plain {o : ℕ} {p : Pass} {v : BhView} (hne : v.base.isSome → ∀ d ∈ v.dims, d.shape ≠ 0)
    (ho : ¬ (p.sweep = true ∧ o = 1)) : scanView o p v = (p, cleanView v) := by
  unfold scanView cleanView
  by_cases hb : v.base.isSome
  · obtain ⟨hop, hcells, hconst⟩ := scan_spec p.sweep o p.opcode p.constant (hne hb)
    rw [if_pos hb, if_pos hb]
    dsimp only [BhView.ndim]
    rw [hop, hcells, hconst ho]
  · rw [if_neg hb, if_neg hb]

theorem cleanOperand_plain {o : ℕ} {p : Pass} {v : BhView} (hne : v.base.isSome → ∀ d ∈ v.dims, d.shape ≠ 0)
    (ho : ¬ (p.sweep = true ∧ o = 1)) : cleanOperand o p v = (p, cleanView v) := by
  unfold cleanOperand
  rw [if_neg (fun h => ho ⟨h.1, h.2.1⟩)]
  exact scanView_plain hne ho

/-- The input of a sweep over an axis of length one. -/
theorem cleanOperand_one {p : Pass} {v : BhView} (hne : v.base.isSome → ∀ d ∈ v.dims, d.shape ≠ 0)
    (hs : p.sweep = true) (h : axisIsOne p.constant v = true) :
    cleanOperand 1 p v = (⟨.identity, p.constant, false⟩, cleanView v) := by
  unfold cleanOperand
  rw [if_pos ⟨hs, rfl, h⟩]
  exact scanView_plain hne (fun h => Bool.noConfusion h.1)

/-- The input of any other sweep. -/
theorem cleanOperand_axis {opcode : BhOpcode} {type : BhType} {a : ℕ} {v : BhView} (hb : v.base.isSome)
    (hne : ∀ d ∈ v.dims, d.shape ≠ 0) (ha : ∃ d, v.dims[a]? = some d ∧ d.shape ≠ 1) :
    ∃ type', cleanOperand 1 ⟨opcode, .int type a, true⟩ v =
      (⟨opcode, .int type' (kept (v.dims.take a)).length, true⟩, cleanView v) := by
  have hone : axisIsOne (.int type a) v = false := by
    obtain ⟨d, hd, hd1⟩ := ha
    simp [axisIsOne, BhConstant.int64, hd, hd1]
  obtain ⟨hop, hcells, _⟩ := scan_spec true 1 opcode (.int type a) hne
  obtain ⟨type', haxis⟩ := scan_axis opcode type hne ha
  refine ⟨type', ?_⟩
  unfold cleanOperand
  rw [if_neg (fun h => Bool.noConfusion (hone.symm.trans h.2.2))]
  unfold scanView
  rw [if_pos hb, cleanView_of_base hb]
  dsimp only [BhView.ndim]
  rw [hop, hcells, haxis]

theorem mem_operands {i : BhInstruction} {o : ℕ} {v : BhView} (hv : (slots i)[o]? = some v)
    (ho : o < bhOperands i.opcode) : v ∈ i.operands := by
  refine List.mem_of_getElem? (i := o) ?_
  rw [BhInstruction.operands, List.getElem?_take, if_pos ho]
  exact hv

theorem turn_plain {o nop : ℕ} {p : Pass} {v : BhView} (ho : ¬ (p.sweep = true ∧ o = 1))
    (hne : o < nop → v.base.isSome → ∀ d ∈ v.dims, d.shape ≠ 0) :
    (if o < nop then cleanOperand o p v else (p, v)) = (p, if o < nop then cleanView v else v) := by
  by_cases h : o < nop
  · rw [if_pos h, if_pos h, cleanOperand_plain (hne h) ho]
  · rw [if_neg h, if_neg h]

/-- An instruction that is no sweep only has its views cleaned. -/
theorem cleanInstr_plain {i : BhInstruction} (h : Input i) (hs : bhOpcodeIsSweep i.opcode = false) :
    (cleanInstr i).opcode = i.opcode ∧ (cleanInstr i).constant = i.constant ∧
      ∀ o < bhOperands i.opcode, (slots (cleanInstr i))[o]? = (slots i)[o]?.map cleanView := by
  have hne : ∀ o v, (slots i)[o]? = some v → o < bhOperands i.opcode → v.base.isSome → ∀ d ∈ v.dims, d.shape ≠ 0 :=
    fun o v hv ho => h.nonempty v (mem_operands hv ho)
  have hp : ∀ o, ¬ ((⟨i.opcode, i.constant, bhOpcodeIsSweep i.opcode⟩ : Pass).sweep = true ∧ o = 1) :=
    fun o hc => Bool.noConfusion (hs.symm.trans hc.1)
  unfold cleanInstr
  dsimp only
  rw [turn_plain (hp 0) (hne 0 i.operand0 rfl)]
  dsimp only
  rw [turn_plain (hp 1) (hne 1 i.operand1 rfl)]
  dsimp only
  rw [turn_plain (hp 2) (hne 2 i.operand2 rfl)]
  refine ⟨rfl, rfl, fun o ho => ?_⟩
  obtain _ | _ | _ | o := o
  · simp [slots, ho]
  · simp [slots, ho]
  · simp [slots, ho]
  · rfl

theorem bhOperands_of_sweep {opcode : BhOpcode} (h : bhOpcodeIsSweep opcode = true) : bhOperands opcode = 3 := by
  cases opcode <;> first | rfl | cases h

/-- A sweep: the views are cleaned, and the axis is followed unless it has length one. -/
theorem cleanInstr_sweep {i : BhInstruction} (h : Input i) (hs : bhOpcodeIsSweep i.opcode = true) :
    (∀ o < bhOperands i.opcode, (slots (cleanInstr i))[o]? = (slots i)[o]?.map cleanView) ∧
      (axisLength i = some 1 → (cleanInstr i).opcode = .identity) ∧
      (axisLength i ≠ some 1 → (cleanInstr i).opcode = i.opcode ∧
        ∃ type, (cleanInstr i).constant = .int type (kept (i.operand1.dims.take i.axis)).length) := by
  have hnop := bhOperands_of_sweep hs
  obtain ⟨hb, type, hconst, hlt⟩ := h.axis hs
  have hne : ∀ o v, (slots i)[o]? = some v → o < 3 → v.base.isSome → ∀ d ∈ v.dims, d.shape ≠ 0 :=
    fun o v hv ho => h.nonempty v (mem_operands hv (by rw [hnop]; exact ho))
  have hget : i.operand1.dims[i.axis]? = some i.operand1.dims[i.axis] := List.getElem?_eq_getElem hlt
  have hlen : axisLength i = some i.operand1.dims[i.axis].shape := by
    rw [axisLength, BhView.shape, List.getElem?_map, hget]
    rfl
  unfold cleanInstr
  dsimp only
  rw [hnop, if_pos (by omega), if_pos (by omega), if_pos (by omega),
    cleanOperand_plain (hne 0 i.operand0 rfl (by omega)) (fun hc => by simp at hc)]
  dsimp only
  by_cases hone : i.operand1.dims[i.axis].shape = 1
  · have haxis : axisIsOne i.constant i.operand1 = true := by
      rw [hconst]
      simp [axisIsOne, BhConstant.int64, hget, hone]
    rw [cleanOperand_one (hne 1 i.operand1 rfl (by omega)) hs haxis]
    dsimp only
    rw [cleanOperand_plain (hne 2 i.operand2 rfl (by omega)) (fun hc => by simp at hc)]
    refine ⟨fun o ho => ?_, fun _ => rfl, fun hc => absurd (hlen.trans (by rw [hone])) hc⟩
    obtain _ | _ | _ | o := o <;> rfl
  · obtain ⟨type', hin⟩ := cleanOperand_axis hb (hne 1 i.operand1 rfl (by omega) hb) ⟨_, hget, hone⟩
    rw [hs, hconst, hin]
    dsimp only
    rw [cleanOperand_plain (hne 2 i.operand2 rfl (by omega)) (fun hc => by simp at hc)]
    refine ⟨fun o ho => ?_, fun hc => absurd (Option.some.inj (hlen.symm.trans hc)) hone, fun _ => ⟨rfl, type', rfl⟩⟩
    obtain _ | _ | _ | o := o <;> rfl

/-! ## The whole list -/

/-- The output index that a sweep computes from an input index, where the axis has length one. -/
def sweepIndex (i : BhInstruction) (idx : List ℕ) : List ℕ :=
  if bhOpcodeIsReduction i.opcode then reduceIndex i.axis idx else idx

/-- The output of a sweep is an array of the shape that the sweep computes. -/
def SweepShape (i : BhInstruction) : Prop :=
  i.operand0.base.isSome ∧ i.operand0.shape =
    if bhOpcodeIsReduction i.opcode then reduceShape i.axis i.operand1.shape else i.operand1.shape

/-- What the filter keeps of an instruction `i`, which it leaves as `i'`. -/
structure Preserves (i i' : BhInstruction) : Prop where
  views : ∀ (o : ℕ) (v : BhView), i.operands[o]? = some v → v.base.isSome → ∃ v', (slots i')[o]? = some v' ∧
    v'.base = v.base ∧ v'.offsets = v.offsets ∧ (v'.ndim = 1 ∨ 1 ∉ v'.shape)
  shapes : ∀ (o₁ o₂ : ℕ) (v₁ v₂ v₁' v₂' : BhView), i.operands[o₁]? = some v₁ → i.operands[o₂]? = some v₂ →
    v₁.base.isSome → v₂.base.isSome → v₁.shape = v₂.shape → (slots i')[o₁]? = some v₁' → (slots i')[o₂]? = some v₂' →
    v₁'.shape = v₂'.shape
  opcode : i'.opcode =
    if bhOpcodeIsSweep i.opcode = true ∧ axisLength i = some 1 then .identity else i.opcode
  axis : bhOpcodeIsSweep i'.opcode = true → ∃ pre d post type, i.operand1.dims = pre ++ d :: post ∧
    pre.length = i.axis ∧ i'.operand1.dims = kept pre ++ d :: kept post ∧ i'.constant = .int type (kept pre).length
  copy : bhOpcodeIsSweep i.opcode = true → axisLength i = some 1 → SweepShape i →
    i'.operand0.shape = i'.operand1.shape ∧
      (indices i.operand1.shape).map (fun idx => (i.operand0.offset (sweepIndex i idx), i.operand1.offset idx)) =
        i'.operand0.offsets.zip i'.operand1.offsets

theorem shape_cleanView {v : BhView} (h : v.base.isSome) : (cleanView v).shape = cleanShape v.shape := by
  rw [cleanView_of_base h]
  exact map_shape_clean v.dims

theorem offsets_cleanView {v : BhView} (h : v.base.isSome) : (cleanView v).offsets = v.offsets := by
  rw [cleanView_of_base h]
  exact offsets_clean v.start v.dims

theorem cleanInstr_slots {i : BhInstruction} (h : Input i) :
    ∀ o < bhOperands i.opcode, (slots (cleanInstr i))[o]? = (slots i)[o]?.map cleanView := by
  cases hs : bhOpcodeIsSweep i.opcode with
  | false => exact (cleanInstr_plain h hs).2.2
  | true => exact (cleanInstr_sweep h hs).1

/-- The operands of an instruction and what becomes of them. -/
theorem getElem?_slots {i : BhInstruction} (h : Input i) {o : ℕ} {v : BhView} (hv : i.operands[o]? = some v) :
    (slots (cleanInstr i))[o]? = some (cleanView v) := by
  rw [BhInstruction.operands, List.getElem?_take] at hv
  split_ifs at hv with ho
  rw [cleanInstr_slots h o ho]
  exact congrArg (Option.map cleanView) hv

/-- The elements of a sweep over an axis of length one, in order. -/
theorem sweep_pairs {i : BhInstruction} (h1 : axisLength i = some 1) (hshape : SweepShape i) :
    cleanShape i.operand0.shape = cleanShape i.operand1.shape ∧
      (indices i.operand1.shape).map (sweepIndex i) = indices i.operand0.shape := by
  obtain ⟨_, hout⟩ := hshape
  unfold axisLength at h1
  unfold sweepIndex
  by_cases hr : bhOpcodeIsReduction i.opcode = true
  · simp only [hr, if_true] at hout ⊢
    rw [hout]
    unfold reduceShape
    by_cases hn : i.operand1.shape.length = 1
    · -- a vector of one element
      obtain ⟨n, hshape⟩ := List.length_eq_one_iff.mp hn
      rw [hshape] at h1 ⊢
      have haxis : i.axis = 0 := by
        have hlt := (List.getElem?_eq_some_iff.mp h1).1
        simp only [List.length_singleton] at hlt
        omega
      rw [haxis] at h1
      obtain rfl : n = 1 := by simpa using h1
      exact ⟨rfl, rfl⟩
    · rw [if_neg hn]
      refine ⟨cleanShape_eraseIdx h1 hn, ?_⟩
      rw [← map_eraseIdx_indices h1]
      refine List.map_congr_left fun idx hidx => ?_
      have hlen := (mem_indices.mp hidx).length_eq
      rw [reduceIndex, if_neg (by rw [hlen]; exact hn)]
  · simp only [hr, if_false, Bool.false_eq_true] at hout ⊢
    rw [hout]
    exact ⟨rfl, List.map_id _⟩

theorem cleanInstr_preserves {i : BhInstruction} (h : Input i) : Preserves i (cleanInstr i) := by
  have hopcode : (cleanInstr i).opcode =
      if bhOpcodeIsSweep i.opcode = true ∧ axisLength i = some 1 then .identity else i.opcode := by
    cases hs : bhOpcodeIsSweep i.opcode with
    | false =>
      rw [(cleanInstr_plain h hs).1, if_neg (fun hc => Bool.noConfusion hc.1)]
    | true =>
      obtain ⟨_, hone, hother⟩ := cleanInstr_sweep h hs
      by_cases hlen : axisLength i = some 1
      · rw [if_pos ⟨rfl, hlen⟩, hone hlen]
      · rw [if_neg (fun hc => hlen hc.2), (hother hlen).1]
  refine ⟨?_, ?_, hopcode, ?_, ?_⟩
  · intro o v hv hb
    refine ⟨_, getElem?_slots h hv, ?_, offsets_cleanView hb, ?_⟩
    · rw [cleanView_of_base hb]
    · rw [cleanView_of_base hb]
      refine (clean_no_ones v.dims).imp_right fun hone hmem => ?_
      obtain ⟨d, hd, hd1⟩ := List.mem_map.mp hmem
      exact hone d hd hd1
  · intro o₁ o₂ v₁ v₂ v₁' v₂' h₁ h₂ hb₁ hb₂ hshape h₁' h₂'
    rw [getElem?_slots h h₁, Option.some.injEq] at h₁'
    rw [getElem?_slots h h₂, Option.some.injEq] at h₂'
    rw [← h₁', ← h₂', shape_cleanView hb₁, shape_cleanView hb₂, hshape]
  · intro hs'
    rw [hopcode] at hs'
    split_ifs at hs' with hone
    · exact Bool.noConfusion hs'
    have hlen : axisLength i ≠ some 1 := fun hc => hone ⟨hs', hc⟩
    obtain ⟨hslots, _, hother⟩ := cleanInstr_sweep h hs'
    obtain ⟨_, type, hconst⟩ := hother hlen
    obtain ⟨hb, _, _, hlt⟩ := h.axis hs'
    have hin : (cleanInstr i).operand1 = cleanView i.operand1 :=
      Option.some.inj (hslots 1 (by rw [bhOperands_of_sweep hs']; omega))
    have hsplit : i.operand1.dims = i.operand1.dims.take i.axis ++
        i.operand1.dims[i.axis] :: i.operand1.dims.drop (i.axis + 1) := by
      rw [← List.drop_eq_getElem_cons hlt, List.take_append_drop]
    have hd : i.operand1.dims[i.axis].shape ≠ 1 := by
      intro hd
      refine hlen ?_
      rw [axisLength, BhView.shape, List.getElem?_map, List.getElem?_eq_getElem hlt, Option.map_some, hd]
    have hkept : kept i.operand1.dims = kept (i.operand1.dims.take i.axis) ++
        i.operand1.dims[i.axis] :: kept (i.operand1.dims.drop (i.axis + 1)) := by
      conv_lhs => rw [hsplit]
      rw [kept_append]
      simp [kept, hd]
    refine ⟨_, _, _, type, hsplit, List.length_take_of_le hlt.le, ?_, hconst⟩
    rw [hin, cleanView_of_base hb]
    dsimp only
    rw [clean, hkept, if_neg (by simp)]
  · intro hs hlen hshape
    obtain ⟨hclean, hpairs⟩ := sweep_pairs hlen hshape
    obtain ⟨hslots, _⟩ := cleanInstr_sweep h hs
    have hnop := bhOperands_of_sweep hs
    have hout : (cleanInstr i).operand0 = cleanView i.operand0 := Option.some.inj (hslots 0 (by omega))
    have hin : (cleanInstr i).operand1 = cleanView i.operand1 := Option.some.inj (hslots 1 (by omega))
    have hb := (h.axis hs).1
    rw [hout, hin, shape_cleanView hshape.1, shape_cleanView hb, offsets_cleanView hshape.1, offsets_cleanView hb]
    refine ⟨hclean, ?_⟩
    rw [BhView.offsets_eq_map, BhView.offsets_eq_map, ← hpairs, List.map_map, List.zip_map']
    rfl

/-- The filter keeps the meaning of every instruction. -/
theorem filter_preserves {l : List BhInstruction} (hl : ∀ i ∈ l, Input i) :
    List.Forall₂ Preserves l (filter l) := by
  unfold filter
  rw [List.forall₂_map_right_iff, List.forall₂_same]
  exact fun i hi => cleanInstr_preserves (hl i hi)

/-- The rows of a 2×1×3 array are summed, and the result is summed over its axis of length one. -/
def sumRows : List BhInstruction :=
  let a : BhBase := ⟨0, .int64, 6⟩
  let b : BhBase := ⟨1, .int64, 2⟩
  let c : BhBase := ⟨2, .int64, 2⟩
  [⟨.addReduce, ⟨some b, 0, [⟨2, 1⟩, ⟨1, 1⟩]⟩, ⟨some a, 0, [⟨2, 3⟩, ⟨1, 3⟩, ⟨3, 1⟩]⟩, ⟨none, 0, []⟩, .int .int64 2⟩,
    ⟨.addReduce, ⟨some c, 0, [⟨2, 1⟩]⟩, ⟨some b, 0, [⟨2, 1⟩, ⟨1, 1⟩]⟩, ⟨none, 0, []⟩, .int .int64 1⟩]

theorem filter_preserves_sumRows : List.Forall₂ Preserves sumRows (filter sumRows) ∧
    (filter sumRows).map (fun i => (i.opcode, i.constant)) =
      [(.addReduce, .int .int64 1), (.identity, .int .int64 1)] := by
  refine ⟨filter_preserves fun i hi => ?_, by decide⟩
  simp only [sumRows, List.mem_cons, List.not_mem_nil, or_false] at hi
  obtain rfl | rfl := hi
  · exact ⟨by decide, fun _ => ⟨rfl, .int64, rfl, by decide⟩⟩
  · exact ⟨by decide, fun _ => ⟨rfl, .int64, rfl, by decide⟩⟩

/-! ## Empty arrays -/

/-- A dimension of length zero. -/
def HasZero (ds : List Dim) : Prop := ∃ d ∈ ds, d.shape = 0

instance (ds : List Dim) : Decidable (HasZero ds) := inferInstanceAs (Decidable (∃ d ∈ ds, d.shape = 0))

/-- An array operand without elements. -/
def IsEmpty (v : BhView) : Prop := v.base.isSome = true ∧ HasZero v.dims

instance (v : BhView) : Decidable (IsEmpty v) := inferInstanceAs (Decidable (_ ∧ _))

theorem hasZero_take_succ {ds : List Dim} {k : ℕ} (hk : k < ds.length) :
    HasZero (ds.take (k + 1)) ↔ HasZero (ds.take k) ∨ ds[k].shape = 0 := by
  rw [List.take_add_one, List.getElem?_eq_getElem hk]
  simp only [HasZero, Option.toList_some, List.mem_append, List.mem_singleton]
  constructor
  · rintro ⟨d, hd | rfl, h0⟩
    · exact Or.inl ⟨d, hd, h0⟩
    · exact Or.inr h0
  · rintro (⟨d, hd, h0⟩ | h0)
    · exact ⟨d, Or.inl hd, h0⟩
    · exact ⟨_, Or.inr rfl, h0⟩

/-- Before turn `k` the cells from `k` on are unread, and the opcode is gone once a zero was met. -/
theorem scan_opcode_take (sweep : Bool) (o : ℕ) (opcode : BhOpcode) (constant : BhConstant) (ds : List Dim) (n : ℕ)
    (k : ℕ) (hk : k ≤ ds.length) :
    let s := (List.range k).foldl (scanDim sweep o) ⟨opcode, constant, ds, n, 0⟩
    s.opcode = (if HasZero (ds.take k) then .none else opcode) ∧ s.cells.drop k = ds.drop k ∧ s.ii ≤ k := by
  induction k with
  | zero => simp [HasZero]
  | succ k ih =>
    obtain ⟨hop, hdrop, hii⟩ := ih (by omega)
    rw [List.range_succ, List.foldl_append, List.foldl_cons, List.foldl_nil]
    generalize (List.range k).foldl (scanDim sweep o) ⟨opcode, constant, ds, n, 0⟩ = s at hop hdrop hii
    have hcell : s.cells[k]? = some ds[k] := by
      have hhead := congrArg List.head? hdrop
      rwa [List.head?_drop, List.head?_drop, List.getElem?_eq_getElem hk] at hhead
    have hrest : s.cells.drop (k + 1) = ds.drop (k + 1) := by
      rw [← List.drop_drop, hdrop, List.drop_drop]
    simp only [scanDim, hcell, hasZero_take_succ hk]
    by_cases h0 : ds[k].shape = 0
    · rw [if_pos h0]
      exact ⟨by simp [h0], hrest, Nat.le_succ_of_le hii⟩
    · have hop' : s.opcode = if HasZero (ds.take k) ∨ ds[k].shape = 0 then .none else opcode := by
        simpa [h0] using hop
      rw [if_neg h0]
      by_cases h1 : ds[k].shape = 1
      · rw [if_pos h1]
        exact ⟨hop', hrest, Nat.le_succ_of_le hii⟩
      · rw [if_neg h1]
        by_cases hlt : s.ii < k
        · rw [if_pos hlt]
          refine ⟨hop', ?_, Nat.succ_le_succ hii⟩
          show (s.cells.set s.ii ds[k]).drop (k + 1) = _
          rw [List.drop_set_of_lt (by omega)]
          exact hrest
        · rw [if_neg hlt]
          exact ⟨hop', hrest, Nat.succ_le_succ hii⟩

theorem scanView_opcode (o : ℕ) (p : Pass) (v : BhView) :
    (scanView o p v).1.opcode = if IsEmpty v then .none else p.opcode := by
  unfold scanView IsEmpty
  by_cases hb : v.base.isSome = true
  · have hop := (scan_opcode_take p.sweep o p.opcode p.constant v.dims v.ndim v.dims.length le_rfl).1
    rw [List.take_length] at hop
    rw [if_pos hb]
    simp only [hb, true_and]
    exact hop
  · simp [hb]

theorem cleanOperand_opcode (o : ℕ) (p : Pass) (v : BhView) :
    (cleanOperand o p v).1.opcode = if IsEmpty v then .none
      else if p.sweep ∧ o = 1 ∧ axisIsOne p.constant v then .identity else p.opcode := by
  rw [cleanOperand, scanView_opcode]
  split_ifs <;> rfl

theorem opcode_none_of_empty {o : ℕ} (p : Pass) {v : BhView} (h : IsEmpty v) :
    (cleanOperand o p v).1.opcode = .none := by
  rw [cleanOperand_opcode, if_pos h]

/-- Only an operand without elements takes the opcode away. -/
theorem empty_of_opcode_none {o : ℕ} {p : Pass} {v : BhView} (h : (cleanOperand o p v).1.opcode = .none)
    (hp : p.opcode ≠ .none) : IsEmpty v := by
  rw [cleanOperand_opcode] at h
  split_ifs at h with he hs
  · exact he
  · exact absurd h hp

theorem exists_empty {i : BhInstruction} (hi : i.opcode ≠ .none) (h : (cleanInstr i).opcode = .none) :
    ∃ v ∈ i.operands, IsEmpty v := by
  have hturn : ∀ {o nop : ℕ} {p : Pass} {v : BhView}, p.opcode ≠ .none →
      (if o < nop then cleanOperand o p v else (p, v)).1.opcode = .none → o < nop ∧ IsEmpty v := by
    intro o nop p v hp h
    by_cases ho : o < nop
    · rw [if_pos ho] at h
      exact ⟨ho, empty_of_opcode_none h hp⟩
    · rw [if_neg ho] at h
      exact absurd h hp
  have hmem : ∀ {o : ℕ} {v : BhView}, (slots i)[o]? = some v → o < bhOperands i.opcode → v ∈ i.operands :=
    fun hv ho => mem_operands hv ho
  by_contra hnone
  push Not at hnone
  have h0 : (if 0 < bhOperands i.opcode then
      cleanOperand 0 ⟨i.opcode, i.constant, bhOpcodeIsSweep i.opcode⟩ i.operand0
      else (⟨i.opcode, i.constant, bhOpcodeIsSweep i.opcode⟩, i.operand0)).1.opcode ≠ .none := by
    intro h
    obtain ⟨ho, he⟩ := hturn hi h
    exact hnone _ (hmem rfl ho) he
  unfold cleanInstr at h
  dsimp only at h
  obtain ⟨ho, he⟩ := hturn (fun h => by
    obtain ⟨ho, he⟩ := hturn h0 h
    exact hnone _ (hmem rfl ho) he) h
  exact hnone _ (hmem rfl ho) he

/-- An input without elements takes the opcode away, also when the sweep has become a copy before. -/
theorem opcode_none_of_input {i : BhInstruction} {v : BhView} (hv : v ∈ i.inputs) (h : IsEmpty v) :
    (cleanInstr i).opcode = .none := by
  have hkeep : ∀ {p : Pass} (v : BhView), p.opcode = .none →
      (if 2 < bhOperands i.opcode then cleanOperand 2 p v else (p, v)).1.opcode = .none := by
    intro p v hp
    split
    · rw [cleanOperand_opcode]
      simp [hp]
    · exact hp
  have hslot : 1 < bhOperands i.opcode ∧ v = i.operand1 ∨ 2 < bhOperands i.opcode ∧ v = i.operand2 := by
    unfold BhInstruction.inputs BhInstruction.operands at hv
    obtain hn | hn | hn : bhOperands i.opcode ≤ 1 ∨ bhOperands i.opcode = 2 ∨ 2 < bhOperands i.opcode := by omega
    · obtain hn | hn : bhOperands i.opcode = 0 ∨ bhOperands i.opcode = 1 := by omega
      · simp [hn] at hv
      · simp [hn] at hv
    · simp only [hn, List.take_succ_cons, List.take_zero, List.tail_cons, List.mem_singleton] at hv
      exact Or.inl ⟨by omega, hv⟩
    · rw [List.take_of_length_le (show 3 ≤ _ by omega)] at hv
      simp only [List.tail_cons, List.mem_cons, List.not_mem_nil, or_false] at hv
      obtain rfl | rfl := hv
      · exact Or.inl ⟨by omega, rfl⟩
      · exact Or.inr ⟨hn, rfl⟩
  unfold cleanInstr
  dsimp only
  obtain ⟨hn, rfl⟩ | ⟨hn, rfl⟩ := hslot
  · apply hkeep
    rw [if_pos hn]
    exact opcode_none_of_empty _ h
  · rw [if_pos hn]
    exact opcode_none_of_empty _ h

/-- The operations on the state of an array. -/
def ManagesArray (opcode : BhOpcode) : Prop := opcode = .free ∨ opcode = .discard ∨ opcode = .sync

theorem opcode_none_of_manages {i : BhInstruction} (hi : ManagesArray i.opcode) (h : IsEmpty i.operand0) :
    (cleanInstr i).opcode = .none := by
  obtain hop | hop | hop := hi <;>
  · simp only [cleanInstr, hop, bhOperands, Nat.lt_irrefl, if_false, Nat.zero_lt_one,
      if_true, show ¬ 2 < 1 by decide]
    exact opcode_none_of_empty _ h

/-- `i'` has lost no effect of `i`: an instruction that was taken away manages no array and has no
element to write. -/
def LosesNothing (i i' : BhInstruction) : Prop :=
  i.opcode ≠ .none → i'.opcode = .none → ¬ ManagesArray i.opcode ∧ HasZero i.operand0.dims

/-- An instruction with an empty operand that the filter may take away. -/
def Droppable (i : BhInstruction) : Prop :=
  (ManagesArray i.opcode → ¬ IsEmpty i.operand0) ∧ ∀ v ∈ i.inputs, IsEmpty v → HasZero i.operand0.dims

theorem losesNothing_cleanInstr_iff (i : BhInstruction) : LosesNothing i (cleanInstr i) ↔ Droppable i := by
  constructor
  · intro h
    constructor
    · intro hm he
      have hne : i.opcode ≠ .none := by
        obtain hop | hop | hop := hm <;> simp [hop]
      exact (h hne (opcode_none_of_manages hm he)).1 hm
    · intro v hv he
      have hne : i.opcode ≠ .none := by
        intro hop
        simp [BhInstruction.inputs, BhInstruction.operands, hop, bhOperands] at hv
      exact (h hne (opcode_none_of_input hv he)).2
  · intro hd hne hnone
    obtain ⟨hmanages, hinputs⟩ := hd
    obtain ⟨v, hv, he⟩ := exists_empty hne hnone
    have hops : bhOperands i.opcode ≠ 0 := fun h0 => hne ((bhOperands_eq_zero_iff _).mp h0)
    rw [BhInstruction.operands_eq_cons hops] at hv
    obtain rfl | hv := List.mem_cons.mp hv
    · exact ⟨fun hm => hmanages hm he, he.2⟩
    · refine ⟨fun hm => ?_, hinputs v hv he⟩
      -- these have one operand
      obtain hop | hop | hop := hm <;>
      · simp [BhInstruction.inputs, BhInstruction.operands, hop, bhOperands] at hv

/-- The filter loses an effect exactly on the instructions that are not droppable. -/
theorem filter_losesNothing_iff (l : List BhInstruction) :
    List.Forall₂ LosesNothing l (filter l) ↔ ∀ i ∈ l, Droppable i := by
  unfold filter
  rw [List.forall₂_map_right_iff, List.forall₂_same]
  simp only [losesNothing_cleanInstr_iff]

/-- A `BH_DISCARD` of an empty array, and the sum of three times zero elements, are lost. -/
theorem not_losesNothing_emptyArray :
    let a : BhBase := ⟨0, .int64, 0⟩
    let b : BhBase := ⟨1, .int64, 3⟩
    ¬ List.Forall₂ LosesNothing [⟨.discard, ⟨some a, 0, [⟨0, 1⟩]⟩, ⟨none, 0, []⟩, ⟨none, 0, []⟩, .int .int64 0⟩]
        (filter [⟨.discard, ⟨some a, 0, [⟨0, 1⟩]⟩, ⟨none, 0, []⟩, ⟨none, 0, []⟩, .int .int64 0⟩]) ∧
      ¬ List.Forall₂ LosesNothing
        [⟨.addReduce, ⟨some b, 0, [⟨3, 1⟩]⟩, ⟨some a, 0, [⟨3, 0⟩, ⟨0, 1⟩]⟩, ⟨none, 0, []⟩, .int .int64 1⟩]
        (filter [⟨.addReduce, ⟨some b, 0, [⟨3, 1⟩]⟩, ⟨some a, 0, [⟨3, 0⟩, ⟨0, 1⟩]⟩, ⟨none, 0, []⟩, .int .int64 1⟩]) := by
  constructor
  · intro h
    have h := (List.forall₂_cons.mp h).1 (by decide) (by decide)
    exact h.1 (Or.inr (Or.inl rfl))
  · intro h
    have h := (List.forall₂_cons.mp h).1 (by decide) (by decide)
    exact absurd h.2 (by decide)

end Dimclean

end Bohrium
