import Bohrium.Bxx.Discipline
import Bohrium.Library.Layout

/-! # What a binary operation with an explicit result enqueues

Leading dimensions are aligned. The code is right in two cases: the inputs have the shape of the result,
or they differ from each other before the last dimension, one of them has the rank of the result, and both
are contiguous from the first element of their base, because `temp_view` forgets starts and strides. -/
namespace Bohrium.Bxx
open Strided Layout
set_option autoImplicit false

/-! ## What the operation is for -/

/-- The operand `v` has the lengths `out` and shows the array `a` broadcast to them. -/
def Reads (out : List ℕ) (v a : BhView) : Prop :=
  v.base = a.base ∧ v.shape = out ∧ ∀ idx ∈ indices out, v.offset idx = a.offset (coordinate a.shape idx)

/-- The instruction that an operation put on the queue: the first event once the queue has room. -/
def Enqueued (w : Bridge) (o : Outcome) (i : BhInstruction) : Prop :=
  o.thrown = false ∧ ∃ tail, o.state.log = w.guard.log ++ .instr i :: tail

/-- Both inputs are broadcast to the result, or the operation throws and enqueues nothing. -/
def BroadcastsRight (w : Bridge) (opcode : BhOpcode) (res lhs rhs : ℕ) : Prop :=
  let out := (w.view res).shape
  let o := binary w opcode false res lhs rhs
  if BroadcastsTo (w.view lhs).shape out ∧ BroadcastsTo (w.view rhs).shape out then
    ∃ i, Enqueued w o i ∧ i.opcode = opcode ∧ i.operand0 = w.view res ∧ Reads out i.operand1 (w.view lhs) ∧
      Reads out i.operand2 (w.view rhs)
  else o.thrown = true ∧ o.state.log = w.log

/-! ## The condition -/

/-- In row-major order from the first element of the base on. -/
def Plain (v : BhView) : Prop := v.start = 0 ∧ Alike v.dims (rowMajor v.shape)

instance (v : BhView) : Decidable (Plain v) := inferInstanceAs (Decidable (_ ∧ _))

/-- All lengths but the last one are broadcast, and the last one exceeds a one of the result. -/
def Overhangs : List ℕ → List ℕ → Prop
  | [n], [o] => o = 1 ∧ 1 < n
  | n :: ns, o :: os => (n = o ∨ n = 1) ∧ Overhangs ns os
  | _, _ => False

/-- When the code does what it is for. -/
def BroadcastOk (out lhs rhs : BhView) : Prop :=
  let lower := if lhs.ndim < rhs.ndim then lhs else rhs
  let higher := if lhs.ndim < rhs.ndim then rhs else lhs
  if BroadcastsTo lhs.shape out.shape ∧ BroadcastsTo rhs.shape out.shape then
    (lhs.shape = out.shape ∧ rhs.shape = out.shape) ∨
      (sameShape lhs rhs = false ∧ higher.ndim = out.ndim ∧ Plain lhs ∧ Plain rhs)
  else if sameShape lhs rhs then sameShape out rhs = false
  else ¬ (BroadcastsTo lower.shape out.shape ∧ Overhangs higher.shape out.shape)

/-! ## The loops -/

theorem shape_rowMajor (ns : List ℕ) : (rowMajor ns).map Dim.shape = ns := by
  induction ns with
  | nil => rfl
  | cons n ns ih => rw [rowMajor, List.map_cons, ih]

theorem length_rowMajor (ns : List ℕ) : (rowMajor ns).length = ns.length := by
  rw [← List.length_map (f := Dim.shape), shape_rowMajor]

/-- The dimensions `ds` where the loops have widened them to the lengths `os`. -/
def filled : List ℕ → List Dim → List Dim
  | [], _ => []
  | o :: os, [] => ⟨o, 0⟩ :: filled os []
  | o :: os, d :: ds => (if d.shape < o then ⟨o, 0⟩ else d) :: filled os ds

theorem shape_filled {ds : List Dim} {os : List ℕ} (h : BroadcastsTo (ds.map Dim.shape) os)
    (hos : ∀ o ∈ os, 0 < o) : (filled os ds).map Dim.shape = os := by
  induction os generalizing ds with
  | nil => rfl
  | cons o os ih =>
    rw [List.forall_mem_cons] at hos
    cases ds with
    | nil => rw [filled, List.map_cons, @ih [] trivial hos.2]
    | cons d ds =>
      obtain ⟨hd, hrest⟩ := h
      rw [filled, List.map_cons, ih hrest hos.2]
      have hfirst : (if d.shape < o then (⟨o, 0⟩ : Dim) else d).shape = o := by
        split_ifs with hlt
        · rfl
        · omega
      rw [hfirst]

theorem broadcastRightDims_stretch {out ds : List Dim} (hle : ds.length ≤ out.length) :
    ((broadcastRightDims out (ds ++ (out.drop ds.length).map fun d => ⟨d.shape, 0⟩)).1 = true ↔
      BroadcastsTo (ds.map Dim.shape) (out.map Dim.shape)) ∧
    (BroadcastsTo (ds.map Dim.shape) (out.map Dim.shape) →
      (broadcastRightDims out (ds ++ (out.drop ds.length).map fun d => ⟨d.shape, 0⟩)).2 =
        filled (out.map Dim.shape) ds) := by
  induction out generalizing ds with
  | nil =>
    rw [List.length_eq_zero_iff.mp (Nat.le_zero.mp hle)]
    exact ⟨iff_of_true rfl trivial, fun _ => rfl⟩
  | cons o out ih =>
    cases ds with
    | nil =>
      obtain ⟨h1, h2⟩ := @ih [] (Nat.zero_le _)
      have hrest := h2 trivial
      rw [List.nil_append, List.length_nil, List.drop_zero] at h1 hrest ⊢
      simp only [List.map_cons, broadcastRightDims, lt_irrefl, if_false, true_or, if_true]
      exact ⟨h1, fun _ => by rw [hrest, filled]⟩
    | cons d ds =>
      obtain ⟨h1, h2⟩ := ih (Nat.le_of_succ_le_succ hle)
      simp only [List.cons_append, List.length_cons, List.drop_succ_cons, List.map_cons, broadcastRightDims, BroadcastsTo,
        filled]
      by_cases hd : d.shape = o.shape ∨ d.shape = 1
      · rw [if_pos hd, and_iff_right hd]
        exact ⟨h1, fun h => by rw [h2 h]⟩
      · rw [if_neg hd]
        exact ⟨iff_of_false Bool.false_ne_true fun h => hd h.1, fun h => absurd h.1 hd⟩

theorem length_broadcastRightDims (out ds : List Dim) : (broadcastRightDims out ds).2.length = ds.length := by
  induction out generalizing ds with
  | nil => rfl
  | cons o out ih =>
    cases ds with
    | nil => rfl
    | cons d ds =>
      rw [broadcastRightDims]
      by_cases hd : d.shape = o.shape ∨ d.shape = 1
      · rw [if_pos hd, List.length_cons, List.length_cons, ih ds]
      · rw [if_neg hd]
        rfl

theorem length_broadcastDims (ds es : List Dim) :
    (broadcastDims ds es).2.1.length = ds.length ∧ (broadcastDims ds es).2.2.length = es.length := by
  induction ds generalizing es with
  | nil => exact ⟨rfl, rfl⟩
  | cons d ds ih =>
    cases es with
    | nil => exact ⟨rfl, rfl⟩
    | cons e es =>
      obtain ⟨h1, h2⟩ := ih es
      rw [broadcastDims]
      split_ifs <;> simp [h1, h2]

theorem overhangs_cons {n o p : ℕ} {ns os : List ℕ} :
    Overhangs (n :: ns) (o :: p :: os) ↔ (n = o ∨ n = 1) ∧ Overhangs ns (p :: os) := by
  cases ns <;> rfl

theorem Overhangs.length_eq {ns os : List ℕ} (h : Overhangs ns os) : ns.length = os.length := by
  induction os generalizing ns with
  | nil =>
    cases ns with
    | nil => rfl
    | cons n ns => cases ns <;> exact h.elim
  | cons o os ih =>
    cases ns with
    | nil => exact h.elim
    | cons n ns =>
      cases os with
      | nil =>
        cases ns with
        | nil => rfl
        | cons m ns => exact absurd (ih h.2) (by simp)
      | cons p os => rw [List.length_cons, List.length_cons, ih (overhangs_cons.mp h).2]

/-- Where the lower operand has the lengths of the result, they stay except for the last one. -/
theorem broadcastDims_iff {ds es : List Dim} (hds : ∀ d ∈ ds, 0 < d.shape) (hes : ∀ e ∈ es, 0 < e.shape)
    (hle : es.length ≤ ds.length) :
    ((broadcastDims ds es).1 = true ∧ ((broadcastDims ds es).2.1.map Dim.shape).dropLast = (ds.map Dim.shape).dropLast) ↔
      BroadcastsTo (es.map Dim.shape) (ds.map Dim.shape) ∨ Overhangs (es.map Dim.shape) (ds.map Dim.shape) := by
  induction ds generalizing es with
  | nil =>
    rw [List.length_eq_zero_iff.mp (Nat.le_zero.mp hle)]
    exact iff_of_true ⟨rfl, rfl⟩ (Or.inl trivial)
  | cons d ds ih =>
    cases es with
    | nil => exact iff_of_true ⟨rfl, rfl⟩ (Or.inl trivial)
    | cons e es =>
      rw [List.forall_mem_cons] at hds hes
      have hih := ih hds.2 hes.2 (Nat.le_of_succ_le_succ hle)
      rw [broadcastDims]
      cases ds with
      | nil =>
        rw [List.length_eq_zero_iff.mp (Nat.le_zero.mp (Nat.le_of_succ_le_succ hle))]
        simp only [List.map_cons, List.map_nil, List.dropLast_singleton, BroadcastsTo, Overhangs, and_true]
        split_ifs <;> simp [broadcastDims] <;> omega
      | cons f ds =>
        have hne : (broadcastDims (f :: ds) es).2.1.map Dim.shape ≠ [] := by
          rw [Ne, List.map_eq_nil_iff, List.eq_nil_iff_length_eq_zero, (length_broadcastDims (f :: ds) es).1]
          exact Nat.succ_ne_zero _
        rw [List.map_cons, List.map_cons, List.map_cons, overhangs_cons, BroadcastsTo, ← and_or_left, ← List.map_cons (a := f), ← hih]
        have hlast : ((d.shape :: (f :: ds).map Dim.shape).dropLast) = d.shape :: ((f :: ds).map Dim.shape).dropLast := rfl
        rw [hlast]
        by_cases hc : d.shape = e.shape ∨ d.shape = 1 ∨ e.shape = 1
        · rw [if_pos hc]
          dsimp only
          rw [List.map_cons, List.dropLast_cons_of_ne_nil hne, List.cons.injEq]
          have hfirst : (if d.shape < e.shape then (⟨e.shape, 0⟩ : Dim) else d).shape = d.shape ↔
              e.shape = d.shape ∨ e.shape = 1 := by
            split_ifs with hlt
            · show e.shape = d.shape ↔ _
              omega
            · omega
          rw [hfirst]
          exact and_left_comm
        · rw [if_neg hc]
          constructor
          · rintro ⟨h, _⟩
            cases h
          · rintro ⟨h, _⟩
            omega

/-- Where both operands are broadcast, the lower one stays and the higher one is widened. -/
theorem broadcastDims_of_broadcasts {ds es : List Dim} (hds : ∀ d ∈ ds, 0 < d.shape)
    (h : BroadcastsTo (es.map Dim.shape) (ds.map Dim.shape)) :
    broadcastDims ds es = (true, ds, (filled (ds.map Dim.shape) es).take es.length) := by
  induction ds generalizing es with
  | nil =>
    cases es with
    | nil => rfl
    | cons e es => exact h.elim
  | cons d ds ih =>
    cases es with
    | nil => rfl
    | cons e es =>
      rw [List.forall_mem_cons] at hds
      obtain ⟨he, hrest⟩ := h
      have hlt : ¬ d.shape < e.shape := by omega
      rw [broadcastDims, if_pos (by tauto), ih hds.2 hrest, if_neg hlt]
      rfl

variable {out lower higher : BhView}

theorem sameShape_ndim {u v : BhView} (h : sameShape u v = true) : u.ndim = v.ndim := by
  unfold sameShape at h
  rw [Bool.and_eq_true, beq_iff_eq] at h
  exact h.1

theorem stretch_of_le (h : higher.ndim ≤ lower.ndim) : stretch lower higher = lower.dims := by
  unfold stretch
  rw [List.drop_eq_nil_of_le h, List.map_nil, List.append_nil]

theorem le_length_stretch (lower higher : BhView) : higher.ndim ≤ (stretch lower higher).length ∧
    lower.ndim ≤ (stretch lower higher).length := by
  have h : (stretch lower higher).length = lower.ndim + (higher.ndim - lower.ndim) := by
    unfold stretch
    rw [List.length_append, List.length_map, List.length_drop]
    rfl
  omega

theorem broadcastRight_of_broadcasts (h : BroadcastsTo lower.shape out.shape) :
    broadcastRight out lower = (true, { lower with dims := filled out.shape lower.dims }) := by
  have hle : lower.ndim ≤ out.ndim := by simpa [BhView.shape, BhView.ndim] using h.length_le
  obtain ⟨hiff, hdims⟩ := broadcastRightDims_stretch hle
  exact Prod.ext (hiff.mpr h) (congrArg (fun ds => { lower with dims := ds }) (hdims h))

theorem length_filled (hout : ∀ d ∈ out.dims, 0 < d.shape) (h : BroadcastsTo lower.shape out.shape) :
    (filled out.shape lower.dims).map Dim.shape = out.shape ∧ (filled out.shape lower.dims).length = out.ndim := by
  have hshape := shape_filled h (by simpa [BhView.shape] using hout)
  refine ⟨hshape, ?_⟩
  rw [← List.length_map (f := Dim.shape), hshape]
  exact List.length_map _

theorem pos_filled (hout : ∀ d ∈ out.dims, 0 < d.shape) (h : BroadcastsTo lower.shape out.shape) :
    ∀ d ∈ filled out.shape lower.dims, 0 < d.shape := by
  intro d hd
  have hmem : d.shape ∈ out.shape := (length_filled hout h).1 ▸ List.mem_map_of_mem hd
  obtain ⟨e, he, heq⟩ := List.mem_map.mp hmem
  rw [← heq]
  exact hout e he

/-- What a success of `broadcast` with an output says of the ranks. -/
theorem ndim_broadcastTo (hsame : (broadcastTo out lower higher).1 = true) :
    lower.ndim ≤ out.ndim ∧ higher.ndim ≤ out.ndim ∧ BroadcastsTo lower.shape out.shape := by
  unfold broadcastTo at hsame
  dsimp only at hsame
  cases hright : (broadcastRight out lower).1 with
  | false =>
    rw [hright] at hsame
    cases hsame
  | true =>
    rw [hright] at hsame
    simp only [if_true, Bool.and_eq_true] at hsame
    have hndim := sameShape_ndim hsame.2
    have hlen : (broadcast (broadcastRight out lower).2 higher).2.1.ndim =
        (stretch (broadcastRight out lower).2 higher).length := (length_broadcastDims _ _).1
    have hlower : (broadcastRight out lower).2.ndim = (stretch lower out).length := length_broadcastRightDims _ _
    have h1 := le_length_stretch (broadcastRight out lower).2 higher
    have h2 := le_length_stretch lower out
    have hle : lower.ndim ≤ out.ndim := by omega
    exact ⟨hle, by omega, (broadcastRightDims_stretch hle).1.mp hright⟩

/-- When `broadcast` with an output does not fail. -/
theorem broadcastTo_iff (hout : ∀ d ∈ out.dims, 0 < d.shape) (hhigher : ∀ d ∈ higher.dims, 0 < d.shape) :
    (broadcastTo out lower higher).1 = true ↔ BroadcastsTo lower.shape out.shape ∧
      (BroadcastsTo higher.shape out.shape ∨ Overhangs higher.shape out.shape) := by
  by_cases hb : BroadcastsTo lower.shape out.shape ∧ higher.ndim ≤ out.ndim
  · obtain ⟨hb, hle⟩ := hb
    obtain ⟨hshape, hlen⟩ := length_filled hout hb
    have hpos := pos_filled hout hb
    have hiff := broadcastDims_iff hpos hhigher (by rw [hlen]; exact hle)
    rw [hshape] at hiff
    rw [and_iff_right hb]
    refine Iff.trans ?_ hiff
    rw [broadcastTo, broadcastRight_of_broadcasts hb]
    simp only [if_true, broadcast, Bool.and_eq_true]
    rw [stretch_of_le (show higher.ndim ≤ (filled out.shape lower.dims).length by rw [hlen]; exact hle)]
    refine and_congr_right fun _ => ?_
    rw [sameShape, Bool.and_eq_true, beq_iff_eq, beq_iff_eq, eq_comm (a := out.shape.dropLast)]
    refine and_iff_right ?_
    exact (((length_broadcastDims _ _).1).trans hlen).symm
  · refine iff_of_false (fun h => ?_) fun h => ?_
    · obtain ⟨_, hle, hlow⟩ := ndim_broadcastTo h
      exact hb ⟨hlow, hle⟩
    · refine hb ⟨h.1, ?_⟩
      rcases h.2 with h | h
      · simpa [BhView.shape, BhView.ndim] using h.length_le
      · simpa [BhView.shape, BhView.ndim] using h.length_eq.le

theorem broadcastTo_of_broadcasts (hout : ∀ d ∈ out.dims, 0 < d.shape) (hl : BroadcastsTo lower.shape out.shape)
    (hh : BroadcastsTo higher.shape out.shape) : broadcastTo out lower higher =
      (true, { lower with dims := filled out.shape lower.dims },
        { higher with dims := (filled out.shape higher.dims).take higher.ndim }) := by
  obtain ⟨hshape, hlen⟩ := length_filled hout hl
  have hpos := pos_filled hout hl
  have hle : higher.ndim ≤ out.ndim := by simpa [BhView.shape, BhView.ndim] using hh.length_le
  have hdims := @broadcastDims_of_broadcasts _ higher.dims hpos (by rw [hshape]; exact hh)
  rw [hshape] at hdims
  rw [broadcastTo, broadcastRight_of_broadcasts hl]
  simp only [if_true, broadcast]
  rw [stretch_of_le (show higher.ndim ≤ (filled out.shape lower.dims).length by rw [hlen]; exact hle), hdims]
  have hsame : sameShape out { lower with dims := filled out.shape lower.dims } = true := by
    rw [sameShape, Bool.and_eq_true, beq_iff_eq, beq_iff_eq]
    refine ⟨hlen.symm, ?_⟩
    rw [show ({ lower with dims := filled out.shape lower.dims } : BhView).shape = out.shape from hshape]
  dsimp only
  rw [hsame]
  rfl

/-- Operands of one rank come out with one shape. -/
theorem broadcastDims_shape_eq {ds es : List Dim} (h : (broadcastDims ds es).1 = true) (hlen : ds.length = es.length) :
    (broadcastDims ds es).2.1.map Dim.shape = (broadcastDims ds es).2.2.map Dim.shape := by
  induction ds generalizing es with
  | nil =>
    rw [List.length_eq_zero_iff.mp hlen.symm]
    rfl
  | cons d ds ih =>
    obtain ⟨e, es, rfl⟩ := List.exists_cons_of_length_eq_add_one hlen.symm
    rw [broadcastDims] at h ⊢
    by_cases hc : d.shape = e.shape ∨ d.shape = 1 ∨ e.shape = 1
    · rw [if_pos hc] at h ⊢
      have hfirst : (if d.shape < e.shape then (⟨e.shape, 0⟩ : Dim) else d).shape =
          (if e.shape < d.shape then (⟨d.shape, 0⟩ : Dim) else e).shape := by
        by_cases h1 : d.shape < e.shape
        · rw [if_pos h1, if_neg (by omega)]
        · by_cases h2 : e.shape < d.shape
          · rw [if_neg h1, if_pos h2]
          · rw [if_neg h1, if_neg h2]
            omega
      dsimp only at h ⊢
      rw [List.map_cons, List.map_cons, hfirst, ih h (Nat.succ.inj hlen)]
    · rw [if_neg hc] at h
      cases h

/-- An overhanging operand has the rank of the result, and passes its test as the lower one does. -/
theorem sameShape_of_overhangs (hsame : (broadcastTo out lower higher).1 = true) (h : Overhangs higher.shape out.shape) :
    sameShape out (broadcastTo out lower higher).2.2 = true := by
  obtain ⟨_, _, hlow⟩ := ndim_broadcastTo hsame
  have hndim : higher.ndim = out.ndim := by simpa [BhView.shape, BhView.ndim] using h.length_eq
  rw [broadcastTo, broadcastRight_of_broadcasts hlow] at hsame ⊢
  simp only [if_true, broadcast, Bool.and_eq_true] at hsame ⊢
  obtain ⟨hdims, hfirst⟩ := hsame
  have hlen : (stretch { lower with dims := filled out.shape lower.dims } higher).length = higher.dims.length := by
    have h1 := sameShape_ndim hfirst
    have h2 : _ = (stretch { lower with dims := filled out.shape lower.dims } higher).length := (length_broadcastDims _ higher.dims).1
    exact h2.symm.trans (h1.symm.trans hndim.symm)
  have hshape := broadcastDims_shape_eq hdims hlen
  unfold sameShape BhView.ndim at hfirst ⊢
  rw [Bool.and_eq_true, beq_iff_eq, beq_iff_eq] at hfirst ⊢
  refine ⟨?_, ?_⟩
  · rw [hfirst.1, (length_broadcastDims _ _).1, (length_broadcastDims _ _).2]
    exact hlen
  · rw [hfirst.2]
    exact congrArg List.dropLast hshape

/-! ## Operands -/

/-- The views of the two inputs in the instruction, `none` where the operation throws. -/
def operands (out lhs rhs : BhView) : Option (BhView × BhView) :=
  if sameShape lhs rhs then if sameShape out rhs then some (lhs, rhs) else none
  else
    let b := broadcastInputs (some out) lhs rhs
    if b.1 && sameShape out b.2.2 then some (⟨lhs.base, 0, b.2.1.dims⟩, ⟨rhs.base, 0, b.2.2.dims⟩) else none

theorem coordinate_eq_self {ns idx : List ℕ} (h : idx ∈ indices ns) : coordinate ns idx = idx := by
  rw [mem_indices] at h
  induction h with
  | nil => rfl
  | @cons i n idx ns hlt _ ih =>
    rw [coordinate, List.zipWith_cons_cons]
    rw [coordinate] at ih
    rw [ih]
    split_ifs with hn
    · obtain rfl : i = 0 := by omega
      rfl
    · rfl

theorem reads_self (out v : BhView) : Reads out.shape v v ↔ v.shape = out.shape := by
  unfold Reads
  rw [and_iff_right rfl]
  refine and_iff_left_of_imp fun hshape idx hidx => ?_
  rw [coordinate_eq_self (hshape ▸ hidx)]

theorem alike_filled_widen {os : List ℕ} {ds es : List Dim} (hshape : ds.map Dim.shape = es.map Dim.shape)
    (hos : ∀ o ∈ os, 0 < o) (h : BroadcastsTo (ds.map Dim.shape) os) : Alike (filled os es) (widen os ds) ↔ Alike ds es := by
  induction os generalizing ds es with
  | nil =>
    cases ds with
    | nil =>
      rw [List.map_eq_nil_iff.mp hshape.symm]
      exact iff_of_true List.Forall₂.nil List.Forall₂.nil
    | cons d ds => exact h.elim
  | cons o os ih =>
    rw [List.forall_mem_cons] at hos
    cases ds with
    | nil =>
      rw [List.map_eq_nil_iff.mp hshape.symm]
      have hrest := (@ih [] [] rfl hos.2 trivial).mpr List.Forall₂.nil
      exact iff_of_true (List.Forall₂.cons ⟨rfl, fun _ => rfl⟩ hrest) List.Forall₂.nil
    | cons d ds =>
      obtain ⟨e, es, rfl⟩ := List.exists_cons_of_ne_nil (show es ≠ [] by rintro rfl; cases hshape)
      obtain ⟨hde, hrest⟩ := List.cons.inj hshape
      obtain ⟨hd, hb⟩ := h
      rw [filled, widen]
      refine List.forall₂_cons.trans (Iff.trans ?_ List.forall₂_cons.symm)
      refine and_congr ?_ (ih hrest hos.2 hb)
      by_cases hlt : e.shape < o
      · rw [if_pos hlt, if_pos (by omega)]
        exact iff_of_true ⟨rfl, fun _ => rfl⟩ ⟨hde, by omega⟩
      · rw [if_neg hlt]
        by_cases h1 : d.shape = 1
        · rw [if_pos h1]
          have heo : e.shape = o := by omega
          exact iff_of_true ⟨heo, by omega⟩ ⟨hde, by omega⟩
        · rw [if_neg h1]
          constructor
          · rintro ⟨_, h⟩
            exact ⟨hde, fun hlt => (h (hde ▸ hlt)).symm⟩
          · rintro ⟨_, h⟩
            have heo : e.shape = o := by omega
            exact ⟨heo, fun hlt => (h (hde ▸ hlt)).symm⟩

/-- What `temp_view` and the loops make of an input shows it exactly if it is plain. -/
theorem reads_filled (hout : ∀ d ∈ out.dims, 0 < d.shape) {v : BhView} (h : BroadcastsTo v.shape out.shape) :
    Reads out.shape ⟨v.base, 0, filled out.shape (rowMajor v.shape)⟩ v ↔ Plain v := by
  have hos : ∀ o ∈ out.shape, 0 < o := by simpa [BhView.shape] using hout
  have hrow : v.dims.map Dim.shape = (rowMajor v.shape).map Dim.shape := (shape_rowMajor v.shape).symm
  have hshape : (filled out.shape (rowMajor v.shape)).map Dim.shape = out.shape := shape_filled (hrow ▸ h) hos
  have hpos : ∀ d ∈ filled out.shape (rowMajor v.shape), 0 < d.shape := by
    intro d hd
    exact hos _ (hshape ▸ List.mem_map_of_mem hd)
  have hlen : v.dims.length ≤ out.shape.length := by simpa [BhView.shape] using h.length_le
  have hshows := @shows_iff _ (widen out.shape v.dims) hpos (by rw [hshape, shape_widen]) 0 v.start
  rw [hshape, alike_filled_widen hrow hos h] at hshows
  unfold Reads Plain
  rw [and_iff_right rfl, eq_comm (a := v.start), ← hshows]
  refine (and_iff_right hshape).trans ?_
  refine forall₂_congr fun idx hidx => ?_
  have hidxlen : idx.length = out.shape.length := (mem_indices.mp hidx).length_eq
  rw [dot_widen hidxlen hlen]
  rfl

/-- `broadcast` with an output of the two inputs, the one of lower rank first. -/
theorem broadcastInputs_eq (out lhs rhs : BhView) : broadcastInputs (some out) lhs rhs =
    if lhs.ndim < rhs.ndim then broadcastTo out (copied lhs) (copied rhs)
    else ((broadcastTo out (copied rhs) (copied lhs)).1, (broadcastTo out (copied rhs) (copied lhs)).2.2,
      (broadcastTo out (copied rhs) (copied lhs)).2.1) := rfl

theorem shape_copied (v : BhView) : (copied v).shape = v.shape := shape_rowMajor v.shape

theorem ndim_copied (v : BhView) : (copied v).ndim = v.ndim := by
  rw [BhView.ndim, copied, length_rowMajor, BhView.shape, List.length_map, BhView.ndim]

theorem pos_copied {v : BhView} (hv : ∀ d ∈ v.dims, 0 < d.shape) : ∀ d ∈ (copied v).dims, 0 < d.shape := by
  intro d hd
  have hmem : d.shape ∈ (copied v).shape := List.mem_map_of_mem hd
  rw [shape_copied] at hmem
  obtain ⟨e, he, heq⟩ := List.mem_map.mp hmem
  rw [← heq]
  exact hv e he

theorem sameShape_of_shape {u v : BhView} (h : u.shape = v.shape) : sameShape u v = true := by
  have hndim : u.ndim = v.ndim := by simpa [BhView.shape, BhView.ndim] using congrArg List.length h
  rw [sameShape, h, hndim]
  simp

/-- The higher operand keeps its rank. -/
theorem reads_taken (hout : ∀ d ∈ out.dims, 0 < d.shape) {v : BhView} (h : BroadcastsTo v.shape out.shape) :
    Reads out.shape ⟨v.base, 0, (filled out.shape (rowMajor v.shape)).take v.ndim⟩ v ↔ v.ndim = out.ndim ∧ Plain v := by
  have hlen : (filled out.shape (rowMajor v.shape)).length = out.ndim := by
    have := @shape_filled (rowMajor v.shape) out.shape (by rw [shape_rowMajor]; exact h) (by simpa [BhView.shape] using hout)
    rw [← List.length_map (f := Dim.shape), this, BhView.shape, List.length_map, BhView.ndim]
  have hle : v.ndim ≤ out.ndim := by simpa [BhView.shape, BhView.ndim] using h.length_le
  have htake : v.ndim = out.ndim → (filled out.shape (rowMajor v.shape)).take v.ndim = filled out.shape (rowMajor v.shape) :=
    fun heq => List.take_of_length_le (by omega)
  constructor
  · intro hreads
    have heq : v.ndim = out.ndim := by
      have hshape : (((filled out.shape (rowMajor v.shape)).take v.ndim).map Dim.shape).length = out.shape.length :=
        congrArg List.length hreads.2.1
      rw [List.length_map, List.length_take, hlen, BhView.shape, List.length_map, ← BhView.ndim] at hshape
      omega
    rw [htake heq] at hreads
    exact ⟨heq, (reads_filled hout h).mp hreads⟩
  · rintro ⟨heq, hplain⟩
    rw [htake heq]
    exact (reads_filled hout h).mpr hplain

/-- The operands of two inputs that are broadcast but not of one shape. -/
theorem operands_of_broadcasts {lhs rhs : BhView} (hout : ∀ d ∈ out.dims, 0 < d.shape)
    (hl : BroadcastsTo lhs.shape out.shape) (hr : BroadcastsTo rhs.shape out.shape) (hsame : sameShape lhs rhs = false) :
    (∃ l r, operands out lhs rhs = some (l, r) ∧ Reads out.shape l lhs ∧ Reads out.shape r rhs) ↔
      (if lhs.ndim < rhs.ndim then rhs else lhs).ndim = out.ndim ∧ Plain lhs ∧ Plain rhs := by
  have hl' : BroadcastsTo (copied lhs).shape out.shape := by rw [shape_copied]; exact hl
  have hr' : BroadcastsTo (copied rhs).shape out.shape := by rw [shape_copied]; exact hr
  -- the test on the right operand succeeds if that operand is right
  have hsome : ∀ (b : Option BhBase) (l : BhView) (ds : List Dim),
      (∃ l' r', (if sameShape out ⟨b, 0, ds⟩ = true then some (l, (⟨rhs.base, 0, ds⟩ : BhView)) else none) = some (l', r') ∧
        Reads out.shape l' lhs ∧ Reads out.shape r' rhs) ↔ Reads out.shape l lhs ∧ Reads out.shape ⟨rhs.base, 0, ds⟩ rhs := by
    intro b l ds
    constructor
    · rintro ⟨l', r', h, hreads⟩
      split_ifs at h
      obtain ⟨rfl, rfl⟩ := Prod.mk.inj (Option.some.inj h)
      exact hreads
    · intro hreads
      refine ⟨_, _, if_pos (sameShape_of_shape ?_), hreads⟩
      exact hreads.2.2.1.symm
  rw [operands, if_neg (Bool.eq_false_iff.mp hsame), broadcastInputs_eq]
  by_cases hlt : lhs.ndim < rhs.ndim
  · rw [if_pos hlt, if_pos hlt, broadcastTo_of_broadcasts hout hl' hr']
    refine (hsome none _ _).trans ?_
    rw [ndim_copied]
    refine (and_congr (reads_filled hout hl) (reads_taken hout hr)).trans ?_
    exact and_left_comm
  · rw [if_neg hlt, if_neg hlt, broadcastTo_of_broadcasts hout hr' hl']
    refine (hsome none _ _).trans ?_
    rw [ndim_copied]
    refine (and_congr (reads_taken hout hl) (reads_filled hout hr)).trans ?_
    exact and_assoc

/-- When the operation throws on inputs that are not of one shape. -/
theorem operands_eq_none {lhs rhs : BhView} (hout : ∀ d ∈ out.dims, 0 < d.shape) (hl : ∀ d ∈ lhs.dims, 0 < d.shape)
    (hr : ∀ d ∈ rhs.dims, 0 < d.shape) (hsame : sameShape lhs rhs = false)
    (hb : ¬ (BroadcastsTo lhs.shape out.shape ∧ BroadcastsTo rhs.shape out.shape)) : operands out lhs rhs = none ↔
      ¬ (BroadcastsTo (if lhs.ndim < rhs.ndim then lhs else rhs).shape out.shape ∧
        Overhangs (if lhs.ndim < rhs.ndim then rhs else lhs).shape out.shape) := by
  -- the lower operand is broadcast, but then the higher one is not
  have hiff : ∀ lower higher : BhView, (∀ d ∈ higher.dims, 0 < d.shape) →
      ¬ (BroadcastsTo lower.shape out.shape ∧ BroadcastsTo higher.shape out.shape) →
      ((broadcastTo out (copied lower) (copied higher)).1 = true ↔
        BroadcastsTo lower.shape out.shape ∧ Overhangs higher.shape out.shape) := by
    intro lower higher hpos hnot
    rw [broadcastTo_iff hout (pos_copied hpos), shape_copied, shape_copied]
    exact and_congr_right fun h => or_iff_right fun h' => hnot ⟨h, h'⟩
  have hnone : ∀ (c : Bool) (p : BhView × BhView), (if c = true then some p else none) = none ↔ ¬ c = true := by
    intro c p
    cases c <;> simp
  rw [operands, if_neg (Bool.eq_false_iff.mp hsame), broadcastInputs_eq, hnone, not_iff_not, Bool.and_eq_true]
  by_cases hlt : lhs.ndim < rhs.ndim
  · rw [if_pos hlt, if_pos hlt, if_pos hlt, ← hiff lhs rhs hr hb]
    refine and_iff_left_of_imp fun h => sameShape_of_overhangs h ?_
    rw [shape_copied]
    exact ((hiff lhs rhs hr hb).mp h).2
  · have hb' : ¬ (BroadcastsTo rhs.shape out.shape ∧ BroadcastsTo lhs.shape out.shape) := fun h => hb ⟨h.2, h.1⟩
    rw [if_neg hlt, if_neg hlt, if_neg hlt, ← hiff rhs lhs hl hb']
    refine and_iff_left_of_imp fun h => ?_
    dsimp only at h ⊢
    unfold broadcastTo at h ⊢
    dsimp only at h ⊢
    split_ifs at h ⊢ with hright
    exact (Bool.and_eq_true_iff.mp h).2

/-! ## The log -/

namespace Bridge

variable (w : Bridge)

theorem log_guard : w.log <+: w.guard.log := by
  unfold guard
  split_ifs
  · exact List.prefix_append _ _
  · exact List.prefix_refl _

theorem log_push (i : BhInstruction) : (w.push i).log = w.guard.log ++ [.instr i] := rfl

theorem log_le_push (i : BhInstruction) : w.log <+: (w.push i).log :=
  w.log_guard.trans (List.prefix_append _ _)

theorem log_dropReference (checked : Bool) (v : BhView) : w.log <+: (w.dropReference checked v).log := by
  unfold dropReference
  cases v.base with
  | none => exact List.prefix_refl _
  | some b =>
    dsimp only
    split_ifs
    · refine List.IsPrefix.trans ?_ (log_le_push _ _)
      unfold freeBase
      split_ifs
      · exact List.prefix_append _ _
      · have hrelease : w.log <+: w.log ++ [Event.release b (w.external b)] := List.prefix_append _ _
        exact hrelease.trans (log_le_push { w with
          refCount := Function.update w.refCount b 0, log := w.log ++ [Event.release b (w.external b)] } _)
    · exact List.prefix_refl _

theorem log_deleteTemp (x : ℕ) : w.log <+: (w.deleteTemp x).log := by
  unfold deleteTemp
  split_ifs
  · exact w.log_dropReference true (w.view x)
  · exact List.prefix_refl _

/-- The instruction is the first event once the queue has room. -/
theorem log_enqueue (opcode : BhOpcode) (x y z : ℕ) (c : BhConstant) : ∃ tail,
    (w.enqueue opcode x (some y) (some z) c).log =
      w.guard.log ++ .instr ⟨opcode, w.view x, w.view y, w.view z, c⟩ :: tail := by
  have hlog : (w.push ⟨opcode, w.view x, w.view y, w.view z, c⟩).log <+:
      (w.enqueue opcode x (some y) (some z) c).log := by
    unfold enqueue
    dsimp only [Option.map_some, Option.getD_some, Option.elim_some]
    refine List.IsPrefix.trans ?_ (log_deleteTemp _ z)
    refine List.IsPrefix.trans ?_ (log_deleteTemp _ y)
    split_ifs
    · exact List.prefix_refl _
    · exact log_deleteTemp _ x
  obtain ⟨tail, htail⟩ := hlog
  rw [log_push, List.append_assoc] at htail
  exact ⟨tail, htail.symm⟩

end Bridge

theorem queue_tempView (w : Bridge) (x : ℕ) (start : ℤ) (dims : List Dim) (sliceDim : ℤ) :
    (w.tempView x start dims sliceDim).1.log = w.log ∧ (w.tempView x start dims sliceDim).1.guard.log = w.guard.log := by
  have haddReference : ∀ v, (w.addReference v).queue = w.queue ∧ (w.addReference v).garbage = w.garbage ∧
      (w.addReference v).log = w.log := by
    intro v
    unfold Bridge.addReference
    cases v.base <;> exact ⟨rfl, rfl, rfl⟩
  unfold Bridge.tempView
  cases w.array? x with
  | none => exact ⟨rfl, rfl⟩
  | some a =>
    obtain ⟨hqueue, hgarbage, hlog⟩ := haddReference a.view
    refine ⟨hlog, ?_⟩
    simp only [Bridge.guard, Bridge.construct, hqueue]
    split_ifs
    · simp only [Bridge.execute, hgarbage, hlog]
    · exact hlog

theorem view_tempView {w : Bridge} {x : ℕ} (hx : (w.array? x).isSome = true) (start : ℤ) (dims : List Dim) (sliceDim : ℤ) :
    (w.tempView x start dims sliceDim).1.view (w.tempView x start dims sliceDim).2 = ⟨(w.view x).base, start, dims⟩ ∧
      ((w.tempView x start dims sliceDim).1.array? (w.tempView x start dims sliceDim).2).isSome = true ∧
      ∀ y, (w.array? y).isSome = true → (w.tempView x start dims sliceDim).1.array? y = w.array? y := by
  obtain ⟨a, ha⟩ := Option.isSome_iff_exists.mp hx
  have harrays := array?_append (arrays_tempView ha start dims sliceDim)
  have hself := harrays (w.tempView x start dims sliceDim).2
  rw [if_pos (tempView_snd ha start dims sliceDim)] at hself
  refine ⟨?_, by rw [hself]; rfl, fun y hy => ?_⟩
  · rw [Bridge.view, hself, Bridge.view, ha]
    rfl
  · obtain ⟨b, hb⟩ := Option.isSome_iff_exists.mp hy
    rw [harrays, if_neg (Nat.ne_of_lt (lt_of_array? hb))]

variable {w : Bridge} {res lhs rhs : ℕ}

/-- What the operation does is decided by the three views. -/
theorem binary_operands (hres : (w.array? res).isSome = true) (hlhs : (w.array? lhs).isSome = true)
    (hrhs : (w.array? rhs).isSome = true) (opcode : BhOpcode) :
    match operands (w.view res) (w.view lhs) (w.view rhs) with
    | none => (binary w opcode false res lhs rhs).thrown = true ∧ (binary w opcode false res lhs rhs).state.log = w.log
    | some (l, r) => Enqueued w (binary w opcode false res lhs rhs) ⟨opcode, w.view res, l, r, .int .int64 0⟩ := by
  unfold operands binary
  by_cases hsame : sameShape (w.view lhs) (w.view rhs) = true
  · rw [if_pos hsame, if_pos hsame]
    by_cases hout : sameShape (w.view res) (w.view rhs) = true
    · rw [if_pos hout, if_pos hout]
      exact ⟨rfl, w.log_enqueue opcode res lhs rhs _⟩
    · rw [if_neg hout, if_neg hout]
      exact ⟨rfl, rfl⟩
  · rw [if_neg hsame, if_neg hsame, if_neg Bool.false_ne_true]
    generalize broadcastInputs (some (w.view res)) (w.view lhs) (w.view rhs) = b
    dsimp only
    obtain ⟨hl, hlsome, hkeepl⟩ := view_tempView hlhs 0 b.2.1.dims (-1)
    obtain ⟨hlogl, hguardl⟩ := queue_tempView w lhs 0 b.2.1.dims (-1)
    generalize w.tempView lhs 0 b.2.1.dims (-1) = left at hl hlsome hkeepl hlogl hguardl ⊢
    have hrhs' : (left.1.array? rhs).isSome = true := by rw [hkeepl rhs hrhs]; exact hrhs
    have hres' : (left.1.array? res).isSome = true := by rw [hkeepl res hres]; exact hres
    obtain ⟨hr, _, hkeepr⟩ := view_tempView hrhs' 0 b.2.2.dims (-1)
    obtain ⟨hlogr, hguardr⟩ := queue_tempView left.1 rhs 0 b.2.2.dims (-1)
    generalize left.1.tempView rhs 0 b.2.2.dims (-1) = right at hr hkeepr hlogr hguardr ⊢
    have hview : ∀ {w w' : Bridge} {x : ℕ}, w'.array? x = w.array? x → w'.view x = w.view x := by
      intro w w' x h
      rw [Bridge.view, Bridge.view, h]
    have hbase : (left.1.view rhs).base = (w.view rhs).base := by rw [hview (hkeepl rhs hrhs)]
    by_cases hok : (b.1 && sameShape (w.view res) b.2.2) = true
    · rw [if_pos hok, if_pos hok]
      obtain ⟨tail, htail⟩ := right.1.log_enqueue opcode res left.2 right.2 (.int .int64 0)
      refine ⟨rfl, tail, ?_⟩
      rw [hguardr, hguardl, hr, hbase, hview ((hkeepr res hres').trans (hkeepl res hres)),
        hview (hkeepr left.2 hlsome), hl] at htail
      exact htail
    · rw [if_neg hok, if_neg hok]
      exact ⟨rfl, hlogr.trans hlogl⟩

theorem Enqueued.unique {o : Outcome} {i i' : BhInstruction} (h : Enqueued w o i) (h' : Enqueued w o i') : i = i' := by
  obtain ⟨_, tail, hlog⟩ := h
  obtain ⟨_, tail', hlog'⟩ := h'
  have heq := List.append_cancel_left (hlog.symm.trans hlog')
  exact Event.instr.inj (List.cons.inj heq).1

/-- The operation is right exactly if the three views meet the condition. -/
theorem broadcastsRight_iff (w : Bridge) (opcode : BhOpcode) (res lhs rhs : ℕ) (hres : (w.array? res).isSome = true)
    (hlhs : (w.array? lhs).isSome = true) (hrhs : (w.array? rhs).isSome = true)
    (hout : ∀ d ∈ (w.view res).dims, 0 < d.shape) (hl : ∀ d ∈ (w.view lhs).dims, 0 < d.shape)
    (hr : ∀ d ∈ (w.view rhs).dims, 0 < d.shape) :
    BroadcastsRight w opcode res lhs rhs ↔ BroadcastOk (w.view res) (w.view lhs) (w.view rhs) := by
  have hop := binary_operands hres hlhs hrhs opcode
  unfold BroadcastsRight BroadcastOk
  dsimp only
  by_cases hboth : BroadcastsTo (w.view lhs).shape (w.view res).shape ∧ BroadcastsTo (w.view rhs).shape (w.view res).shape
  · rw [if_pos hboth, if_pos hboth]
    have hreads : (∃ i, Enqueued w (binary w opcode false res lhs rhs) i ∧ i.opcode = opcode ∧ i.operand0 = w.view res ∧
        Reads (w.view res).shape i.operand1 (w.view lhs) ∧ Reads (w.view res).shape i.operand2 (w.view rhs)) ↔
        ∃ l r, operands (w.view res) (w.view lhs) (w.view rhs) = some (l, r) ∧
          Reads (w.view res).shape l (w.view lhs) ∧ Reads (w.view res).shape r (w.view rhs) := by
      cases h : operands (w.view res) (w.view lhs) (w.view rhs) with
      | none =>
        rw [h] at hop
        refine iff_of_false ?_ ?_
        · rintro ⟨i, hi, _⟩
          rw [hi.1] at hop
          cases hop.1
        · rintro ⟨l, r, hlr, _⟩
          cases hlr
      | some p =>
        rw [h] at hop
        constructor
        · rintro ⟨i, hi, _, _, hreads⟩
          obtain rfl := hi.unique hop
          exact ⟨p.1, p.2, rfl, hreads⟩
        · rintro ⟨l, r, hlr, hreads⟩
          obtain rfl := Option.some.inj hlr
          exact ⟨_, hop, rfl, rfl, hreads⟩
    rw [hreads]
    by_cases hsame : sameShape (w.view lhs) (w.view rhs) = true
    · have hno : ¬ sameShape (w.view lhs) (w.view rhs) = false := by simp [hsame]
      rw [or_iff_left fun h => hno h.1, operands, if_pos hsame]
      constructor
      · rintro ⟨l, r, hlr, hreads⟩
        split_ifs at hlr
        obtain ⟨rfl, rfl⟩ := Prod.mk.inj (Option.some.inj hlr)
        exact ⟨(reads_self _ _).mp hreads.1, (reads_self _ _).mp hreads.2⟩
      · rintro ⟨h1, h2⟩
        exact ⟨_, _, if_pos (sameShape_of_shape h2.symm), (reads_self _ _).mpr h1, (reads_self _ _).mpr h2⟩
    · have hno : ¬ ((w.view lhs).shape = (w.view res).shape ∧ (w.view rhs).shape = (w.view res).shape) := fun h =>
        hsame (sameShape_of_shape (h.1.trans h.2.symm))
      rw [Bool.not_eq_true] at hsame
      rw [or_iff_right hno, and_iff_right hsame]
      exact operands_of_broadcasts hout hboth.1 hboth.2 hsame
  · rw [if_neg hboth, if_neg hboth]
    have hnone : ((binary w opcode false res lhs rhs).thrown = true ∧
        (binary w opcode false res lhs rhs).state.log = w.log) ↔
        operands (w.view res) (w.view lhs) (w.view rhs) = none := by
      cases h : operands (w.view res) (w.view lhs) (w.view rhs) with
      | none =>
        rw [h] at hop
        exact iff_of_true hop rfl
      | some p =>
        rw [h] at hop
        refine iff_of_false (fun hthrown => ?_) (fun h => Option.some_ne_none _ h)
        have hno := hop.1.symm.trans hthrown.1
        cases hno
    rw [hnone]
    by_cases hsame : sameShape (w.view lhs) (w.view rhs) = true
    · rw [if_pos hsame, operands, if_pos hsame]
      cases sameShape (w.view res) (w.view rhs) <;> simp
    · rw [if_neg hsame]
      exact operands_eq_none hout hl hr (Bool.eq_false_iff.mpr hsame) hboth

/-- Two 2 x 3 matrices, a row of three and a column of two. -/
def matrices : Bridge :=
  [.construct .int64 [2, 3], .link 0, .construct .int64 [2, 3], .link 1, .construct .int64 [1, 3], .link 2,
    .construct .int64 [2, 1], .link 3].foldl (fun w a => (w.step a).state) {}

theorem broadcastsRight_row : BroadcastsRight matrices .add 0 1 2 := by
  apply (broadcastsRight_iff matrices .add 0 1 2 (by decide) (by decide) (by decide) (by decide) (by decide) (by decide)).mpr
  unfold BroadcastOk
  dsimp only
  rw [if_pos (by decide)]
  exact Or.inr (by decide)

/-- A column is not broadcast: `same_shape` does not see that the last lengths differ. -/
theorem not_broadcastsRight_column : ¬ BroadcastsRight matrices .add 0 1 3 := by
  have hop := @binary_operands matrices 0 1 3 (by decide) (by decide) (by decide) .add
  unfold BroadcastsRight
  dsimp only
  rw [if_pos (by decide)]
  rintro ⟨i, hi, _, _, _, hreads⟩
  rw [show operands (matrices.view 0) (matrices.view 1) (matrices.view 3) =
    some (matrices.view 1, matrices.view 3) from by decide] at hop
  obtain rfl := hi.unique hop
  exact absurd hreads.2.1 (by decide)

end Bohrium.Bxx
