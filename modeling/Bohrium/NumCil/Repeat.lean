import Bohrium.NumCil.Views

/-! # Repetition

The two overloads of `NdArray.Repeat`. One broadcasts along a new axis behind the repeated one and takes the two
together; the other one copies slice by slice, or goes through the elements with a counter. -/
namespace Bohrium.NumCil
open Strided Walk Pointers Layout Elementwise
set_option autoImplicit false

/-! ## The overloads -/

section
variable {V : Type}

/-- `UFunc.Apply<T, CopyOp<T>>(in1, out)`, `none` if it throws. -/
def applyCopy (dflt : Bool) (in1 out : NdArray) (m : Data V) : Option (Data V) :=
  (checkTarget out in1.shape).map fun out => unaryFlush dflt id in1.accessor in1.shape.addresses out.accessor out.shape.addresses m

/-- `Repeat(long repeats, long? axis)`, `none` if it throws. -/
def repeatEach (fresh : ℕ) (dflt : Bool) (x : NdArray) (repeats : ℕ) (axis : Option ℤ) (m : Data V) : Option (NdArray × Data V) :=
  let rank : ℤ := x.shape.dimensions.length
  let realAxis := (axis.elim rank fun a => if a < 0 then rank - (a + 1) else a + 1).toNat
  (x.subviewRange .newAxis realAxis false).bind fun lv =>
  let targetDims := lv.shape.lengths.set realAxis repeats
  if repeats = 0 then none else
  (toBroadcastShapes lv.shape (plainShape targetDims)).bind fun tp =>
  (lv.reshape tp.1).bind fun in1 =>
  (NdArray.create fresh tp.2).bind fun out =>
  (applyCopy dflt in1 out m).bind fun m' =>
  if axis = none then (NdArray.make out.accessor (plainShape [out.accessor.size])).map (·, m')
  else (out.reshape (plainShape (x.shape.lengths.modify (realAxis - 1) (repeats * ·)))).map (·, m')

/-- `result[resCount++] = value`, `count` times. -/
def emit (result : Accessor) (value : V) (count : ℕ) (s : ℕ × Data V) : ℕ × Data V :=
  (List.range count).foldl (fun s _ => (s.1 + 1, s.2.set result s.1 value)) s

/-- `Repeat(long[] repeats, long? axis)` without an axis. -/
def repeatFlat (fresh : ℕ) (x : NdArray) (repeats : List ℕ) (m : Data V) : Option (NdArray × Data V) :=
  let elements := x.shape.elements
  if elements % repeats.length ≠ 0 then none else
  let count := fun i => repeats.getD (i % repeats.length) 0
  let result : Accessor := ⟨fresh, ((List.range elements).map count).sum⟩
  let limits := x.shape.lengths
  ((List.range elements).foldlM (fun (q : List ℕ × ℕ × Data V) i =>
    ((x.valueIndex q.1).bind fun ix => x.accessor.read q.2.2 ix).map fun value =>
      (tick limits q.1, emit result value (count i) q.2)) (List.replicate limits.length 0, 0, m)).bind fun q =>
  (NdArray.make result (plainShape [result.size])).map (·, q.2.2)

/-- One slice of `Repeat(long[] repeats, long? axis)`. -/
def repeatSlice (dflt : Bool) (x result : NdArray) (axis : ℕ) (repeats : List ℕ) (q : ℕ × Data V) (i : ℕ) : Option (ℕ × Data V) :=
  (x.subviewRange (.el i) axis false).bind fun lv =>
  (result.subviewRange (.slice q.1 (q.1 + repeats.getD i 0 : ℕ)) axis false).bind fun xv =>
  (toBroadcastShapes lv.shape xv.shape).bind fun broadcastShapes =>
  (lv.reshape broadcastShapes.1).bind fun in1 =>
  (xv.reshape broadcastShapes.2).bind fun out =>
  (applyCopy dflt in1 out q.2).map (q.1 + repeats.getD i 0, ·)

/-- `Repeat(long[] repeats, long? axis)` with an axis. -/
def repeatAxis (fresh : ℕ) (dflt : Bool) (x : NdArray) (repeats : List ℕ) (axis : ℕ) (m : Data V) : Option (NdArray × Data V) :=
  (x.shape.dim? axis).bind fun d =>
  if d.length % repeats.length ≠ 0 then none else
  let repeats := if repeats.length ≠ d.length then (List.range d.length).map fun i => repeats.getD (i % repeats.length) 0 else repeats
  let resultDims := x.shape.lengths.set axis repeats.sum
  (NdArray.create fresh (plainShape resultDims)).bind fun result =>
  ((List.range repeats.length).foldlM (repeatSlice dflt x result axis repeats) (0, m)).map fun q => (result, q.2)

/-- The counts: one for all, or an array that is used cyclically. -/
inductive Counts
  | each (repeats : ℕ)
  | cyclic (repeats : List ℕ)
  deriving DecidableEq, Repr

/-- `Repeat(repeats, axis)`, whichever overload it is. -/
def repeatArray (fresh : ℕ) (dflt : Bool) (x : NdArray) (repeats : Counts) (axis : Option ℤ) (m : Data V) :
    Option (NdArray × Data V) :=
  match repeats with
  | .each repeats => repeatEach fresh dflt x repeats axis m
  | .cyclic repeats => axis.elim (repeatFlat fresh x repeats m) fun a =>
    repeatAxis fresh dflt x repeats (if a < 0 then (x.shape.dimensions.length : ℤ) - a else a).toNat m

end

/-! ## Repeated elements -/

def Counts.count : Counts → ℕ → ℕ
  | .each repeats, _ => repeats
  | .cyclic repeats, i => repeats.getD (i % repeats.length) 0

/-- Counts from one on, as many as fit into the length. -/
def Counts.Fits (length : ℕ) : Counts → Prop
  | .each repeats => 1 ≤ repeats
  | .cyclic repeats => repeats.length ∣ length ∧ ∀ n ∈ repeats, 1 ≤ n

/-- What the elements of the result repeat. -/
def repeated (count : ℕ → ℕ) (length : ℕ) : List ℕ := (List.range length).flatMap fun i => List.replicate (count i) i

/-- The axis, counted from the end if it is negative. -/
def Shape.axisOf (sh : Shape) (a : ℤ) : ℕ := (if a < 0 then sh.dimensions.length + a else a).toNat

/-- The element with a number in row-major order. -/
def NdArray.element {V : Type} (x : NdArray) (m : Data V) (e : ℕ) : V := m x.accessor (x.shape.address (coords x.shape.lengths e))

def FlatRight {V : Type} (x : NdArray) (count : ℕ → ℕ) (m : Data V) (y : NdArray) (m' : Data V) : Prop :=
  y.shape.lengths = [(repeated count x.shape.elements).length] ∧
  y.elementList m' = (repeated count x.shape.elements).map (x.element m)

def AxisRight {V : Type} (x : NdArray) (count : ℕ → ℕ) (axis : ℕ) (m : Data V) (y : NdArray) (m' : Data V) : Prop :=
  y.shape.lengths = x.shape.lengths.set axis (repeated count (x.shape.dim axis).length).length ∧
  ∀ idx ∈ indices y.shape.lengths, m' y.accessor (y.shape.address idx) =
    m x.accessor (x.shape.address (idx.modify axis fun i => (repeated count (x.shape.dim axis).length).getD i 0))

/-- `Repeat` returns the array in which every element stands as often as its count says. -/
def RepeatRight (x : NdArray) (repeats : Counts) (axis : Option ℤ) : Prop :=
  ∀ (V : Type) (fresh : ℕ) (dflt : Bool) (m : Data V), fresh ≠ x.accessor.id →
    ∃ y m', repeatArray fresh dflt x repeats axis m = some (y, m') ∧
      axis.elim (FlatRight x repeats.count m y m') fun a => AxisRight x repeats.count (x.shape.axisOf a) m y m'

/-- The axes that are translated. -/
def Counts.Handles (axis : Option ℤ) : Counts → Prop
  | .each _ => ∀ a ∈ axis, -1 ≤ a
  | .cyclic _ => ∀ a ∈ axis, 0 ≤ a

/-! ## Copies -/

theorem reshape_eq {x : NdArray} {sh : Shape} (hpos : ∀ n ∈ sh.lengths, 0 < n) (hfit : sh.space ≤ x.accessor.size) :
    ∃ y, x.reshape sh = some y ∧ y.accessor = x.accessor ∧ y.shape = sh := by
  rw [NdArray.reshape, NdArray.make, dif_pos ⟨fun d hd => hpos _ (List.mem_map_of_mem hd), hfit⟩]
  exact ⟨_, rfl, rfl, rfl⟩

theorem create_eq (fresh : ℕ) {sh : Shape} (hpos : ∀ n ∈ sh.lengths, 0 < n) :
    ∃ y, NdArray.create fresh sh = some y ∧ y.accessor = ⟨fresh, sh.space⟩ ∧ y.shape = sh := by
  rw [NdArray.create, NdArray.make, dif_pos ⟨fun d hd => hpos _ (List.mem_map_of_mem hd), le_rfl⟩]
  exact ⟨_, rfl, rfl, rfl⟩

theorem applyCopy_spec {V : Type} (dflt : Bool) {in1 out : NdArray} (hlen : in1.shape.lengths = out.shape.lengths)
    (hnodup : out.shape.addresses.Nodup) (hne : in1.accessor ≠ out.accessor) (m : Data V) :
    ∃ m', applyCopy dflt in1 out m = some m' ∧
      (∀ idx ∈ indices out.shape.lengths, m' out.accessor (out.shape.address idx) = m in1.accessor (in1.shape.address idx)) ∧
      ∀ a i, (a = out.accessor → i ∉ out.shape.addresses) → m' a i = m a i := by
  rw [applyCopy, checkTarget_eq, if_pos hlen.symm, Option.map_some]
  refine ⟨_, rfl, ?_⟩
  obtain ⟨value, hflush, hvalue, hreads⟩ : ∃ value : (Accessor × ℕ → V) → List ℕ → V,
      unaryFlush dflt id in1.accessor in1.shape.addresses out.accessor out.shape.addresses m =
        loop out.accessor ((indices out.shape.lengths).map fun idx => ⟨out.shape.address idx, fun m => value (cells m) idx⟩) m ∧
      (∀ idx ∈ indices out.shape.lengths, value (cells m) idx = m in1.accessor (in1.shape.address idx)) ∧
      ∀ idx w w', w (in1.accessor, in1.shape.address idx) = w' (in1.accessor, in1.shape.address idx) → value w idx = value w' idx := by
    rw [unaryFlush]
    split
    · next hscalar =>
      refine ⟨fun _ _ => m in1.accessor 0, ?_, fun idx hidx => ?_, fun _ _ _ _ => rfl⟩
      · rw [out.shape.addresses_eq, List.map_map]
        rfl
      · have := in1.address_lt (hlen ▸ hidx)
        rw [show in1.shape.address idx = 0 by omega]
    · refine ⟨fun w idx => w (in1.accessor, in1.shape.address idx), ?_, fun _ _ => rfl, fun _ _ _ h => h⟩
      rw [out.shape.addresses_eq, in1.shape.addresses_eq, hlen, List.zip_map', List.map_map]
      rfl
  have hinj : ∀ idx ∈ indices out.shape.lengths, ∀ idx' ∈ indices out.shape.lengths,
      out.shape.address idx = out.shape.address idx' → idx = idx' := by
    rw [out.shape.addresses_eq] at hnodup
    exact fun idx hidx idx' hidx' heq => List.inj_on_of_nodup_map hnodup hidx hidx' heq
  have hapart : Elementwise.Apart (fun idx => (out.accessor, out.shape.address idx)) value (indices out.shape.lengths) := by
    intro i hi j hj hij
    refine ⟨fun heq => hij (hinj i hi j hj (Prod.mk.inj heq).2), fun w v => hreads j _ _ (Function.update_of_ne ?_ _ _)⟩
    exact fun heq => hne (Prod.mk.inj heq).1
  have hcells := cells_loop out.accessor (indices out.shape.lengths) out.shape.address value m
  rw [hflush]
  constructor
  · intro idx hidx
    have hmem := run_of_mem hapart (nodup_indices _) (cells m) hidx
    rw [← hcells, hvalue idx hidx] at hmem
    exact hmem
  · intro a i hi
    have hkeep : run (fun idx => (out.accessor, out.shape.address idx)) value (indices out.shape.lengths) (cells m) (a, i) =
        cells m (a, i) := by
      apply run_of_ne
      intro idx hidx heq
      obtain ⟨rfl, rfl⟩ := Prod.mk.inj heq
      exact hi rfl (Shape.address_mem hidx)
    rw [← hcells] at hkeep
    exact hkeep

/-! ## Broadcasting to a shape of the same rank -/

/-- Each length is the same or one. -/
def Fills (ns os : List ℕ) : Prop := List.Forall₂ (fun n o => n = o ∨ n = 1) ns os

theorem broadcastsTo_iff_fills {ns os : List ℕ} (hlen : ns.length = os.length) : BroadcastsTo ns os ↔ Fills ns os := by
  induction ns generalizing os with
  | nil =>
    obtain rfl := List.length_eq_zero_iff.mp hlen.symm
    exact iff_of_true trivial List.Forall₂.nil
  | cons n ns ih =>
    obtain ⟨o, os, rfl⟩ := List.exists_cons_of_length_eq_add_one hlen.symm
    rw [Fills, List.forall₂_cons]
    exact and_congr Iff.rfl (ih (Nat.succ.inj hlen))

theorem Fills.broadcastsTo {ns os : List ℕ} (h : Fills ns os) : BroadcastsTo ns.reverse os.reverse := by
  rw [broadcastsTo_iff_fills (by rw [List.length_reverse, List.length_reverse]; exact h.length_eq)]
  exact List.forall₂_reverse_iff.mpr h

theorem toBroadcastShapes_of_fills {self other : Shape} (hself : ∀ n ∈ self.lengths, 0 < n) (hother : ∀ n ∈ other.lengths, 0 < n)
    (h : Fills self.lengths other.lengths) :
    toBroadcastShapes self other = some (broadcastShape self other.lengths, broadcastShape other other.lengths) := by
  have hle := h.broadcastsTo
  obtain ⟨ms, hms, hms'⟩ := join_of_le hle (broadcastsTo_refl _)
  obtain rfl := BroadcastsTo.antisymm hms' (join_eq_some hms).2
  rw [toBroadcastShapes, resultDimensions_eq hself hother, hms, Option.map_some, List.reverse_reverse]
  rfl

theorem spread_of_length {sh : Shape} {idx : List ℕ} (h : idx.length = sh.dimensions.length) : sh.spread idx = coordinate sh.lengths idx := by
  rw [Shape.spread, h, Nat.sub_self, List.drop_zero]

theorem address_broadcast_fills {sh : Shape} {dims idx : List ℕ} (hpos : ∀ n ∈ sh.lengths, 0 < n) (h : Fills sh.lengths dims)
    (hidx : idx ∈ indices dims) : (broadcastShape sh dims).address idx = sh.address (coordinate sh.lengths idx) := by
  have hlen := (mem_indices.mp hidx).length_eq
  rw [address_broadcastShape h.broadcastsTo hpos hlen, spread_of_length]
  rw [hlen, ← h.length_eq, Shape.lengths, List.length_map]

theorem fills_refl (ns : List ℕ) : Fills ns ns := List.forall₂_same.mpr fun _ _ => Or.inl rfl

theorem address_broadcast_self {sh : Shape} {idx : List ℕ} (hpos : ∀ n ∈ sh.lengths, 0 < n) (hidx : idx ∈ indices sh.lengths) :
    (broadcastShape sh sh.lengths).address idx = sh.address idx := by
  rw [address_broadcast_fills hpos (fills_refl _) hidx, coordinate_self hidx]

/-! ## Plain shapes -/

theorem address_plainShape (ns idx : List ℕ) : (plainShape ns).address idx = flatIndex ns idx := by
  rw [Shape.address, plainShape]
  dsimp only
  rw [Nat.zero_add]
  induction ns generalizing idx with
  | nil => cases idx <;> rfl
  | cons n ns ih =>
    cases idx with
    | nil => rfl
    | cons i idx => rw [plainDimensions, displacement, ih, flatIndex]

theorem map_flatIndex (ns : List ℕ) : (indices ns).map (flatIndex ns) = List.range ns.prod := by
  rw [← map_coords, List.map_map]
  conv_rhs => rw [← List.map_id (List.range ns.prod)]
  apply List.map_congr_left
  intro k hk
  exact flatIndex_coords (List.mem_range.mp hk)

theorem flatIndex_top {ns : List ℕ} (hpos : ∀ n ∈ ns, 0 < n) : flatIndex ns (ns.map (· - 1)) + 1 = ns.prod := by
  induction ns with
  | nil => rfl
  | cons n ns ih =>
    rw [List.forall_mem_cons] at hpos
    have hrest := ih hpos.2
    obtain ⟨k, rfl⟩ := Nat.exists_eq_succ_of_ne_zero hpos.1.ne'
    rw [List.map_cons, flatIndex, List.prod_cons, Nat.succ_mul, ← hrest]
    simp only [Nat.succ_eq_add_one, Nat.add_sub_cancel]
    omega

/-- A view whose elements are stored one after the other. -/
def Shape.Packed (sh : Shape) : Prop := ∀ idx ∈ indices sh.lengths, sh.address idx = flatIndex sh.lengths idx

theorem packed_plainShape (ns : List ℕ) : (plainShape ns).Packed := by
  intro idx _
  rw [address_plainShape, lengths_plainShape]

theorem Shape.Packed.addresses {sh : Shape} (h : sh.Packed) : sh.addresses = List.range sh.elements := by
  rw [sh.addresses_eq, Shape.elements, ← map_flatIndex]
  exact List.map_congr_left h

theorem Shape.Packed.space {sh : Shape} (h : sh.Packed) (hpos : ∀ n ∈ sh.lengths, 0 < n) : sh.space = sh.elements := by
  have htop : sh.lengths.map (· - 1) ∈ indices sh.lengths := by
    rw [mem_indices, List.forall₂_map_left_iff, List.forall₂_same]
    intro n hn
    have := hpos n hn
    omega
  have haddress := h _ htop
  have hflat := flatIndex_top hpos
  have hmap : sh.lengths.map (· - 1) = sh.dimensions.map (·.length - 1) := by
    rw [Shape.lengths, List.map_map]
    rfl
  rw [Shape.address, hmap] at haddress
  rw [hmap] at hflat
  rw [Shape.space, spaceRequired_eq, Shape.elements]
  omega

theorem packed_broadcast_plain {ns : List ℕ} (hpos : ∀ n ∈ ns, 0 < n) : (broadcastShape (plainShape ns) ns).Packed := by
  intro idx hidx
  rw [lengths_broadcastShape] at hidx ⊢
  have hself := @address_broadcast_self (plainShape ns) idx
  rw [lengths_plainShape] at hself
  rw [hself hpos hidx, address_plainShape]

/-! ## One count -/

theorem repeated_const {n : ℕ} (hn : 0 < n) (length : ℕ) : repeated (fun _ => n) length = (List.range (length * n)).map (· / n) := by
  induction length with
  | zero => simp [repeated]
  | succ length ih =>
    rw [repeated, List.range_succ, List.flatMap_append, List.flatMap_singleton, ← repeated, ih, Nat.succ_mul, List.range_add,
      List.map_append, List.map_map]
    congr 1
    symm
    rw [List.eq_replicate_iff]
    refine ⟨by simp, ?_⟩
    intro b hb
    obtain ⟨i, hi, rfl⟩ := List.mem_map.mp hb
    rw [Function.comp_apply, Nat.add_comm, Nat.add_mul_div_right _ _ hn, Nat.div_eq_of_lt (List.mem_range.mp hi), Nat.zero_add]

theorem set_insertIdx {l : List ℕ} {k : ℕ} (hk : k ≤ l.length) (a b : ℕ) : (l.insertIdx k a).set k b = l.insertIdx k b := by
  induction l generalizing k with
  | nil =>
    obtain rfl := Nat.le_zero.mp hk
    rfl
  | cons c l ih =>
    cases k with
    | zero => rfl
    | succ k => rw [List.insertIdx_succ_cons, List.insertIdx_succ_cons, List.set_cons_succ, ih (Nat.le_of_succ_le_succ hk)]

theorem fills_insertIdx (l : List ℕ) (k n : ℕ) : Fills (l.insertIdx k 1) (l.insertIdx k n) := by
  induction l generalizing k with
  | nil =>
    cases k with
    | zero => exact List.Forall₂.cons (Or.inr rfl) List.Forall₂.nil
    | succ k => exact List.Forall₂.nil
  | cons c l ih =>
    cases k with
    | zero => exact List.Forall₂.cons (Or.inr rfl) (fills_refl _)
    | succ k => exact List.Forall₂.cons (Or.inl rfl) (ih k)

theorem prod_insertIdx {l : List ℕ} {k : ℕ} (hk : k ≤ l.length) (n : ℕ) : (l.insertIdx k n).prod = n * l.prod := by
  rw [(List.perm_insertIdx n l hk).prod_eq, List.prod_cons]

theorem prod_modify {l : List ℕ} {j : ℕ} (hj : j < l.length) (n : ℕ) : (l.modify j (n * ·)).prod = n * l.prod := by
  induction l generalizing j with
  | nil => simp at hj
  | cons c l ih =>
    cases j with
    | zero => rw [List.modify_zero_cons, List.prod_cons, List.prod_cons, Nat.mul_assoc]
    | succ j =>
      rw [List.modify_succ_cons, List.prod_cons, ih (Nat.lt_of_succ_lt_succ hj), List.prod_cons, Nat.mul_left_comm]

theorem displacement_newAxis {ds : List ShapeDimension} {k n : ℕ} (hk : k ≤ ds.length) {idx : List ℕ}
    (hidx : idx ∈ indices ((ds.map (·.length)).insertIdx k n)) :
    displacement (ds.insertIdx k ⟨1, 0⟩) (coordinate ((ds.map (·.length)).insertIdx k 1) idx) = displacement ds (idx.eraseIdx k) := by
  rw [mem_indices] at hidx
  induction ds generalizing k idx with
  | nil =>
    obtain rfl := Nat.le_zero.mp hk
    rw [List.map_nil, List.insertIdx_zero] at hidx
    obtain ⟨i, is, -, his, rfl⟩ := List.forall₂_cons_right_iff.mp hidx
    rw [List.forall₂_nil_right_iff.mp his]
    rfl
  | cons d ds ih =>
    cases k with
    | zero =>
      rw [List.insertIdx_zero] at hidx
      obtain ⟨i, is, -, his, rfl⟩ := List.forall₂_cons_right_iff.mp hidx
      rw [List.eraseIdx_cons_zero, List.insertIdx_zero, List.insertIdx_zero]
      show 0 * 0 + displacement (d :: ds) (coordinate ((d :: ds).map (·.length)) is) = _
      rw [coordinate_self (mem_indices.mpr his), Nat.zero_mul, Nat.zero_add]
    | succ k =>
      rw [List.map_cons, List.insertIdx_succ_cons] at hidx ⊢
      obtain ⟨i, is, hi, his, rfl⟩ := List.forall₂_cons_right_iff.mp hidx
      rw [List.insertIdx_succ_cons, List.eraseIdx_cons_succ, displacement]
      show (if d.length = 1 then 0 else i) * d.stride + _ = _
      have hfirst : (if d.length = 1 then 0 else i) = i := by split <;> omega
      rw [hfirst, ← ih (Nat.le_of_succ_le_succ hk) his]
      rfl

/-- The index tuple behind an element of the widened axis. -/
theorem exists_split {n : ℕ} (hn : 0 < n) {ls : List ℕ} {j : ℕ} (hj : j < ls.length) {idx : List ℕ}
    (hidx : idx ∈ indices (ls.modify j (n * ·))) : ∃ idx' ∈ indices (ls.insertIdx (j + 1) n),
      flatIndex (ls.insertIdx (j + 1) n) idx' = flatIndex (ls.modify j (n * ·)) idx ∧
      idx'.eraseIdx (j + 1) = idx.modify j (· / n) := by
  simp only [mem_indices] at hidx ⊢
  induction ls generalizing j idx with
  | nil => simp at hj
  | cons l ls ih =>
    cases j with
    | zero =>
      rw [List.modify_zero_cons] at hidx
      obtain ⟨i, is, hi, his, rfl⟩ := List.forall₂_cons_right_iff.mp hidx
      refine ⟨i / n :: i % n :: is, ?_, ?_, rfl⟩
      · rw [List.insertIdx_succ_cons, List.insertIdx_zero]
        exact List.Forall₂.cons (Nat.div_lt_of_lt_mul hi) (List.Forall₂.cons (Nat.mod_lt _ hn) his)
      · rw [List.insertIdx_succ_cons, List.insertIdx_zero, List.modify_zero_cons, flatIndex, flatIndex, flatIndex, List.prod_cons,
          ← Nat.mul_assoc, ← Nat.add_assoc, ← Nat.add_mul, Nat.div_add_mod']
    | succ j =>
      rw [List.modify_succ_cons] at hidx
      obtain ⟨i, is, hi, his, rfl⟩ := List.forall₂_cons_right_iff.mp hidx
      have hj := Nat.lt_of_succ_lt_succ hj
      obtain ⟨is', his', hflat, herase⟩ := ih hj his
      refine ⟨i :: is', List.Forall₂.cons hi his', ?_, ?_⟩
      · rw [List.insertIdx_succ_cons, List.modify_succ_cons, flatIndex, flatIndex, hflat, prod_insertIdx hj, prod_modify hj]
      · rw [List.eraseIdx_cons_succ, List.modify_succ_cons, herase]

theorem modify_congr {l : List ℕ} {j : ℕ} {f g : ℕ → ℕ} (h : ∀ i ∈ l[j]?, f i = g i) : l.modify j f = l.modify j g := by
  apply List.ext_getElem
  · simp
  · intro i hi hi'
    rw [List.length_modify] at hi
    rw [List.getElem_modify, List.getElem_modify]
    split
    · next heq =>
      subst heq
      exact h _ (List.getElem?_eq_getElem hi)
    · rfl

section
variable {V : Type} {fresh : ℕ} {x : NdArray}

/-- The array before it is made flat or reshaped. -/
theorem exists_widened (dflt : Bool) (hfresh : fresh ≠ x.accessor.id) {k n : ℕ} (hk : k ≤ x.shape.dimensions.length) (hn : 0 < n)
    (m : Data V) : ∃ lv tp in1 out m', x.subviewRange .newAxis k false = some lv ∧
      toBroadcastShapes lv.shape (plainShape (lv.shape.lengths.set k n)) = some tp ∧ lv.reshape tp.1 = some in1 ∧
      NdArray.create fresh tp.2 = some out ∧ applyCopy dflt in1 out m = some m' ∧
      out.accessor = ⟨fresh, n * x.shape.elements⟩ ∧ ∀ idx ∈ indices (x.shape.lengths.insertIdx k n),
        m' out.accessor (flatIndex (x.shape.lengths.insertIdx k n) idx) = m x.accessor (x.shape.address (idx.eraseIdx k)) := by
  have hk' : k ≤ x.shape.lengths.length := by rwa [Shape.lengths, List.length_map]
  have hlengths : (x.shape.newAxis k).lengths = x.shape.lengths.insertIdx k 1 := List.map_insertIdx ..
  have hpos : ∀ c, 0 < c → ∀ l ∈ x.shape.lengths.insertIdx k c, 0 < l := by
    intro c hc l hl
    obtain rfl | hl := List.eq_or_mem_of_mem_insertIdx hl
    · exact hc
    · exact x.length_pos l hl
  obtain ⟨lv, hlv, hlvacc, hlvsh⟩ := @reshape_eq x (x.shape.newAxis k) (by rw [hlengths]; exact hpos 1 Nat.one_pos)
    (by rw [Shape.space_newAxis _ hk]; exact x.fits)
  have hset : lv.shape.lengths.set k n = x.shape.lengths.insertIdx k n := by rw [hlvsh, hlengths, set_insertIdx hk']
  have hfills : Fills lv.shape.lengths (plainShape (x.shape.lengths.insertIdx k n)).lengths := by
    rw [hlvsh, hlengths, lengths_plainShape]
    exact fills_insertIdx _ _ _
  have hposT := hpos n hn
  have htp := toBroadcastShapes_of_fills lv.length_pos (by rwa [lengths_plainShape]) hfills
  rw [lengths_plainShape] at htp hfills
  obtain ⟨in1, hin1, hin1acc, hin1sh⟩ := make_broadcastShape (x := lv) hfills.broadcastsTo rfl hposT
  have hpacked := packed_broadcast_plain hposT
  obtain ⟨out, hout, houtacc, houtsh⟩ := @create_eq fresh (broadcastShape (plainShape (x.shape.lengths.insertIdx k n))
    (x.shape.lengths.insertIdx k n)) (by rwa [lengths_broadcastShape])
  have houtlengths : out.shape.lengths = x.shape.lengths.insertIdx k n := by rw [houtsh, lengths_broadcastShape]
  have hne : in1.accessor ≠ out.accessor := by
    rw [hin1acc, hlvacc, houtacc]
    exact fun heq => hfresh (congrArg Accessor.id heq).symm
  obtain ⟨m', hm', hcopy, -⟩ := @applyCopy_spec V dflt in1 out (by rw [hin1sh, lengths_broadcastShape, houtlengths])
    (by rw [houtsh, hpacked.addresses]; exact List.nodup_range) hne m
  refine ⟨lv, _, in1, out, m', ?_, by rw [hset]; exact htp, hin1, hout, hm', ?_, ?_⟩
  · rw [subviewRange_newAxis hk, hlv]
  · rw [houtacc, hpacked.space (by rwa [lengths_broadcastShape]), Shape.elements, lengths_broadcastShape, prod_insertIdx hk']
    rfl
  · intro idx hidx
    have hvalue := hcopy idx (by rwa [houtlengths])
    have hflat := hpacked idx (by rwa [lengths_broadcastShape])
    rw [lengths_broadcastShape] at hflat
    rw [houtsh, hflat, hin1acc, hlvacc, hin1sh, address_broadcast_fills lv.length_pos hfills hidx] at hvalue
    rw [hvalue, hlvsh, hlengths, Shape.address, Shape.address, Shape.newAxis, Shape.lengths, displacement_newAxis hk hidx]

theorem make_plain {a : Accessor} {ns : List ℕ} (hpos : ∀ n ∈ ns, 0 < n) (hsize : ns.prod ≤ a.size) :
    ∃ y, NdArray.make a (plainShape ns) = some y ∧ y.accessor = a ∧ y.shape = plainShape ns := by
  have hpos' : ∀ n ∈ (plainShape ns).lengths, 0 < n := by rwa [lengths_plainShape]
  have hspace : (plainShape ns).space = ns.prod := by
    rw [(packed_plainShape ns).space hpos', Shape.elements, lengths_plainShape]
  rw [NdArray.make, dif_pos ⟨fun d hd => hpos' _ (List.mem_map_of_mem hd), by rwa [hspace]⟩]
  exact ⟨_, rfl, rfl, rfl⟩

theorem elements_pos (x : NdArray) : 0 < x.shape.elements := zero_lt_prod x.length_pos

/-- The elements of an array of one plain dimension. -/
theorem elementList_plain {y : NdArray} {s : ℕ} (hsh : y.shape = plainShape [s]) (m : Data V) :
    y.elementList m = (List.range s).map (m y.accessor) := by
  rw [NdArray.elementList, hsh, lengths_plainShape, indices_one, List.map_map]
  apply List.map_congr_left
  intro i _
  rw [Function.comp_apply, address_plainShape]
  congr 1
  show i * 1 + 0 = i
  omega

theorem repeatEach_flat (dflt : Bool) (hfresh : fresh ≠ x.accessor.id) {n : ℕ} (hn : 0 < n) (m : Data V) :
    ∃ y m', repeatEach fresh dflt x n none m = some (y, m') ∧ FlatRight x (fun _ => n) m y m' := by
  have hrank : x.shape.dimensions.length = x.shape.lengths.length := (List.length_map _).symm
  obtain ⟨lv, tp, in1, out, m', hlv, htp, hin1, hout, hm', hacc, hvalue⟩ := exists_widened dflt hfresh le_rfl hn m
  have hsize : out.accessor.size = n * x.shape.elements := by rw [hacc]
  have hpos : 0 < n * x.shape.elements := Nat.mul_pos hn (elements_pos x)
  obtain ⟨y, hy, hyacc, hysh⟩ := @make_plain out.accessor [n * x.shape.elements] (by simpa using hpos)
    (by rw [List.prod_singleton, hsize])
  refine ⟨y, m', ?_, ?_, ?_⟩
  · unfold repeatEach
    dsimp only
    rw [Option.elim_none, Int.toNat_natCast, hlv, Option.bind_some, if_neg hn.ne', htp, Option.bind_some, hin1, Option.bind_some,
      hout, Option.bind_some, hm', Option.bind_some, if_pos rfl, hsize, hy, Option.map_some]
  · rw [hysh, lengths_plainShape, repeated_const hn, List.length_map, List.length_range, Nat.mul_comm]
  · rw [elementList_plain hysh, hyacc, repeated_const hn, List.map_map, Nat.mul_comm]
    apply List.map_congr_left
    intro i hi
    have hi := List.mem_range.mp hi
    have hprod : (x.shape.lengths ++ [n]).prod = x.shape.elements * n := by rw [List.prod_append, List.prod_singleton, Shape.elements]
    rw [hrank, List.insertIdx_length_self] at hvalue
    have hat := hvalue (coords (x.shape.lengths ++ [n]) i) (coords_mem (by rwa [hprod]))
    have hcoords : coords (x.shape.lengths ++ [n]) i = coords x.shape.lengths (i / n) ++ [i % n] := by
      rw [← coords_append _ _ (Nat.mod_lt i hn), Nat.div_add_mod']
    rw [flatIndex_coords (by rwa [hprod]), hcoords, List.eraseIdx_append_of_length_le (by rw [length_coords]), length_coords,
      Nat.sub_self, List.eraseIdx_cons_zero, List.append_nil] at hat
    exact hat

theorem modify_eq_set {l : List ℕ} {j : ℕ} (f : ℕ → ℕ) : l.modify j f = l.set j (f (l.getD j 1)) := by
  apply List.ext_getElem
  · simp
  · intro i hi hi'
    rw [List.length_modify] at hi
    rw [List.getElem_modify, List.getElem_set]
    split
    · next heq =>
      subst heq
      rw [List.getD_eq_getElem _ _ hi]
    · rfl

theorem axisOf_lt {sh : Shape} {a : ℤ} (hlow : -(sh.dimensions.length : ℤ) ≤ a) (hhigh : a < sh.dimensions.length) :
    sh.axisOf a < sh.dimensions.length := by
  rw [Shape.axisOf]
  split <;> omega

theorem repeatEach_axis (dflt : Bool) (hfresh : fresh ≠ x.accessor.id) {n : ℕ} (hn : 0 < n) {a : ℤ} (hlow : -1 ≤ a)
    (hrank : x.shape.dimensions ≠ []) (hhigh : a < x.shape.dimensions.length) (m : Data V) :
    ∃ y m', repeatEach fresh dflt x n (some a) m = some (y, m') ∧ AxisRight x (fun _ => n) (x.shape.axisOf a) m y m' := by
  have hlen : x.shape.dimensions.length = x.shape.lengths.length := (List.length_map _).symm
  have hrank := List.length_pos_iff.mpr hrank
  have hj : x.shape.axisOf a < x.shape.lengths.length := hlen ▸ axisOf_lt (by omega) hhigh
  have hreal : (if a < 0 then (x.shape.dimensions.length : ℤ) - (a + 1) else a + 1).toNat = x.shape.axisOf a + 1 := by
    rw [Shape.axisOf]
    split <;> omega
  generalize x.shape.axisOf a = j at hj hreal ⊢
  obtain ⟨lv, tp, in1, out, m', hlv, htp, hin1, hout, hm', hacc, hvalue⟩ := exists_widened (k := j + 1) dflt hfresh (by omega) hn m
  have hpos : ∀ l ∈ x.shape.lengths.modify j (n * ·), 0 < l := by
    intro l hl
    obtain ⟨i, hi, rfl⟩ := List.getElem_of_mem hl
    rw [List.length_modify] at hi
    have hone := x.length_pos _ (List.getElem_mem hi)
    rw [List.getElem_modify]
    split
    · exact Nat.mul_pos hn hone
    · exact hone
  obtain ⟨y, hy, hyacc, hysh⟩ := make_plain (a := out.accessor) hpos (by rw [prod_modify hj, hacc]; rfl)
  have hlengths : y.shape.lengths = x.shape.lengths.modify j (n * ·) := by rw [hysh, lengths_plainShape]
  have hrepeated : repeated (fun _ => n) (x.shape.dim j).length = (List.range ((x.shape.dim j).length * n)).map (· / n) :=
    repeated_const hn _
  refine ⟨y, m', ?_, ?_, ?_⟩
  · unfold repeatEach
    dsimp only
    rw [Option.elim_some, hreal, hlv, Option.bind_some, if_neg hn.ne', htp, Option.bind_some, hin1, Option.bind_some,
      hout, Option.bind_some, hm', Option.bind_some, if_neg (by simp), Nat.add_sub_cancel, NdArray.reshape, hy, Option.map_some]
  · rw [hlengths, modify_eq_set, hrepeated, List.length_map, List.length_range, Shape.length_dim, Nat.mul_comm]
  · rw [hlengths]
    intro idx hidx
    obtain ⟨idx', hidx', hflat, herase⟩ := exists_split hn hj hidx
    rw [hysh, address_plainShape, hyacc, ← hflat, hvalue idx' hidx', herase]
    congr 2
    apply modify_congr
    intro i hi
    obtain ⟨hlt, rfl⟩ := List.getElem?_eq_some_iff.mp hi
    have hbound := (List.forall₂_iff_get.mp (mem_indices.mp hidx)).2 j hlt (by simpa using hj)
    simp only [List.get_eq_getElem, List.getElem_modify_eq] at hbound
    have hdim : (x.shape.dim j).length = x.shape.lengths[j] := by rw [Shape.length_dim, List.getD_eq_getElem _ _ hj]
    rw [hrepeated, List.getD_eq_getElem _ _ (by rw [List.length_map, List.length_range, hdim, Nat.mul_comm]; exact hbound),
      List.getElem_map, List.getElem_range]

/-- The axis is counted from the end in the wrong direction. -/
theorem repeatEach_lost (dflt : Bool) (n : ℕ) {a : ℤ} (hlow : a < -1) (m : Data V) : repeatEach fresh dflt x n (some a) m = none := by
  unfold repeatEach
  dsimp only
  rw [Option.elim_some, subviewRange_of_rank_lt, Option.bind_none]
  rw [if_pos (by omega)]
  omega

end

/-! ## Counts for every element -/

theorem length_repeated (count : ℕ → ℕ) (n : ℕ) : (repeated count n).length = ((List.range n).map count).sum := by
  simp [repeated, List.length_flatMap]

theorem repeated_succ (count : ℕ → ℕ) (n : ℕ) : repeated count (n + 1) = repeated count n ++ List.replicate (count n) n := by
  rw [repeated, List.range_succ, List.flatMap_append, List.flatMap_singleton, ← repeated]

theorem le_length_repeated {count : ℕ → ℕ} {n : ℕ} (h : ∀ i < n, 1 ≤ count i) : n ≤ (repeated count n).length := by
  induction n with
  | zero => exact Nat.zero_le _
  | succ n ih =>
    have hn := ih fun i hi => h i (by omega)
    have hone := h n (by omega)
    rw [repeated_succ, List.length_append, List.length_replicate]
    omega

theorem length_repeated_mono (count : ℕ → ℕ) {i n : ℕ} (h : i ≤ n) : (repeated count i).length ≤ (repeated count n).length := by
  induction n, h using Nat.le_induction with
  | base => exact le_rfl
  | succ n _ ih =>
    rw [repeated_succ, List.length_append]
    omega

theorem getD_repeated (count : ℕ → ℕ) {i n p : ℕ} (hi : i < n) (hlow : (repeated count i).length ≤ p)
    (hhigh : p < (repeated count i).length + count i) : (repeated count n).getD p 0 = i := by
  induction n, hi using Nat.le_induction with
  | base =>
    rw [Nat.succ_eq_add_one, repeated_succ, List.getD_append_right _ _ _ _ hlow, List.getD_eq_getElem _ _ (by rw [List.length_replicate]; omega),
      List.getElem_replicate]
  | succ n hn ih =>
    have hmono := length_repeated_mono count hn
    rw [Nat.succ_eq_add_one, repeated_succ, List.length_append, List.length_replicate] at hmono
    rw [repeated_succ, List.getD_append _ _ _ _ (by omega), ih]

theorem Counts.Fits.one_le {repeats : List ℕ} {length : ℕ} (h : (Counts.cyclic repeats).Fits length) (hlength : 0 < length) (i : ℕ) :
    1 ≤ (Counts.cyclic repeats).count i := by
  have hpos : 0 < repeats.length := Nat.pos_of_dvd_of_pos h.1 hlength
  have hlt := Nat.mod_lt i hpos
  rw [Counts.count, List.getD_eq_getElem _ _ hlt]
  exact h.2 _ (List.getElem_mem hlt)

section
variable {V : Type} {fresh : ℕ} {x : NdArray}

/-- The data with the first elements of one array replaced. -/
def Data.filled (m : Data V) (a : Accessor) (vs : List V) : Data V := fun b i => if b = a then vs.getD i (m b i) else m b i

theorem filled_nil (m : Data V) (a : Accessor) : m.filled a [] = m := by
  funext b i
  rw [Data.filled]
  split <;> rfl

theorem filled_of_ne (m : Data V) {a b : Accessor} (vs : List V) (h : b ≠ a) : m.filled a vs b = m b := by
  funext i
  rw [Data.filled, if_neg h]

theorem set_filled (m : Data V) (a : Accessor) (vs : List V) (v : V) : (m.filled a vs).set a vs.length v = m.filled a (vs ++ [v]) := by
  funext b i
  by_cases hb : b = a
  · subst hb
    rw [Data.set, Function.update_self, Data.filled, if_pos rfl]
    by_cases hi : i = vs.length
    · subst hi
      rw [Function.update_self, List.getD_append_right _ _ _ _ le_rfl, Nat.sub_self]
      rfl
    · rw [Function.update_of_ne hi, Data.filled, if_pos rfl]
      obtain hlt | hge := Nat.lt_or_ge i vs.length
      · rw [List.getD_append _ _ _ _ hlt]
      · rw [List.getD_eq_default _ _ hge, List.getD_eq_default _ _ (by rw [List.length_append, List.length_singleton]; omega)]
  · rw [Data.set, Function.update_of_ne hb, Data.filled, Data.filled, if_neg hb, if_neg hb]

theorem emit_filled (m : Data V) (a : Accessor) (vs : List V) (v : V) (count : ℕ) :
    emit a v count (vs.length, m.filled a vs) = ((vs ++ List.replicate count v).length, m.filled a (vs ++ List.replicate count v)) := by
  induction count with
  | zero => rw [List.replicate_zero, List.append_nil]; rfl
  | succ count ih =>
    rw [emit, List.range_succ, List.foldl_append, ← emit, ih, List.foldl_cons, List.foldl_nil, set_filled, List.replicate_succ',
      ← List.append_assoc]
    exact Prod.ext (by simp [Nat.add_assoc]) rfl

theorem valueIndex_eq {idx : List ℕ} (hidx : idx ∈ indices x.shape.lengths) : x.valueIndex idx = some (x.shape.address idx) := by
  rw [NdArray.valueIndex]
  split
  · next hzero =>
    rw [hzero]
    exact congrArg some (address_zeros 1).symm
  · exact Shape.at?_eq (List.append_nil _).symm hidx

theorem repeatFlat_right {repeats : List ℕ} (hfresh : fresh ≠ x.accessor.id)
    (hfit : (Counts.cyclic repeats).Fits x.shape.elements) (m : Data V) :
    ∃ y m', repeatFlat fresh x repeats m = some (y, m') ∧ FlatRight x (Counts.cyclic repeats).count m y m' := by
  let count := (Counts.cyclic repeats).count
  let vs := fun n => (repeated count n).map (x.element m)
  let result : Accessor := ⟨fresh, ((List.range x.shape.elements).map count).sum⟩
  have hne : x.accessor ≠ result := fun heq => hfresh (congrArg Accessor.id heq).symm
  -- the counters stand at the next element
  have hloop : ∀ n ≤ x.shape.elements, ∃ c, (List.range n).foldlM (fun (q : List ℕ × ℕ × Data V) i =>
      ((x.valueIndex q.1).bind fun ix => x.accessor.read q.2.2 ix).map fun value =>
        (tick x.shape.lengths q.1, emit result value (count i) q.2)) (List.replicate x.shape.lengths.length 0, 0, m) =
          some (c, (vs n).length, m.filled result (vs n)) ∧ (n < x.shape.elements → c = coords x.shape.lengths n) := by
    intro n hn
    induction n with
    | zero =>
      refine ⟨_, ?_, fun _ => (coords_zero _).symm⟩
      rw [List.range_zero, List.foldlM_nil]
      show _ = some (_, 0, m.filled result [])
      rw [filled_nil]
      rfl
    | succ n ih =>
      obtain ⟨c, hc, hcoords⟩ := ih (by omega)
      have hmem := @coords_mem x.shape.lengths n hn
      have hcn := hcoords hn
      subst hcn
      refine ⟨tick x.shape.lengths (coords x.shape.lengths n), ?_, fun hnext => tick_coords _ hnext⟩
      have hvalue : x.accessor.read (m.filled result (vs n)) (x.shape.address (coords x.shape.lengths n) : ℕ) = some (x.element m n) := by
        rw [Accessor.read_of_lt (x.address_lt hmem), filled_of_ne _ _ hne]
        rfl
      have hvs : vs (n + 1) = vs n ++ List.replicate (count n) (x.element m n) := by
        show (repeated count (n + 1)).map _ = _
        rw [repeated_succ, List.map_append, List.map_replicate]
      rw [List.range_succ, List.foldlM_append, hc]
      rw [Option.bind_eq_bind, Option.bind_some, List.foldlM_cons, valueIndex_eq hmem, Option.bind_some, hvalue, Option.map_some, emit_filled, ← hvs]
      rfl
  obtain ⟨c, hc, -⟩ := hloop x.shape.elements le_rfl
  have hlength : (repeated count x.shape.elements).length = result.size := length_repeated _ _
  have hpos : 0 < result.size := by
    rw [← hlength]
    exact (elements_pos x).trans_le (le_length_repeated fun i _ => hfit.one_le (elements_pos x) i)
  obtain ⟨y, hy, hyacc, hysh⟩ := @make_plain result [result.size] (by simpa using hpos)
    (by rw [List.prod_singleton])
  refine ⟨y, m.filled result (vs x.shape.elements), ?_, ?_, ?_⟩
  · unfold repeatFlat
    dsimp only
    rw [if_neg (by rw [not_not]; exact Nat.mod_eq_zero_of_dvd hfit.1)]
    refine (congrArg (Option.bind · _) hc).trans ?_
    exact congrArg (Option.map fun y => (y, m.filled result (vs x.shape.elements))) hy
  · rw [hysh, lengths_plainShape, hlength]
  · rw [elementList_plain hysh, hyacc]
    apply List.ext_getElem
    · rw [List.length_map, List.length_map, List.length_range, hlength]
    · intro i hi hi'
      rw [List.getElem_map, List.getElem_range, Data.filled, if_pos rfl, List.getD_eq_getElem _ _ hi']

/-! ## Slices -/

theorem displacement_cut {ds : List ShapeDimension} {dim first length : ℕ} {idx : List ℕ} (hlen : idx.length = ds.length)
    (hdim : dim < ds.length) : first * (ds.getD dim ⟨1, 0⟩).stride + displacement (ds.modify dim fun d => ⟨length, d.stride⟩) idx =
      displacement ds (idx.modify dim (· + first)) := by
  induction ds generalizing dim idx with
  | nil => simp at hdim
  | cons d ds ih =>
    obtain ⟨i, is, rfl⟩ := List.exists_cons_of_length_eq_add_one hlen
    cases dim with
    | zero =>
      rw [List.modify_zero_cons, List.modify_zero_cons, displacement, displacement, List.getD_cons_zero, Nat.add_mul]
      dsimp only
      omega
    | succ dim =>
      rw [List.modify_succ_cons, List.modify_succ_cons, displacement, displacement, List.getD_cons_succ,
        ← ih (Nat.succ.inj hlen) (Nat.lt_of_succ_lt_succ hdim)]
      omega

theorem address_cut {sh : Shape} {dim : ℕ} (hdim : dim < sh.dimensions.length) (first length : ℕ) {idx : List ℕ}
    (hlen : idx.length = sh.dimensions.length) : (sh.cut dim first length).address idx = sh.address (idx.modify dim (· + first)) := by
  rw [Shape.address, Shape.address, ← @displacement_cut _ _ _ length _ hlen hdim]
  dsimp only [Shape.cut, Shape.dim]
  omega

theorem lengths_cut (sh : Shape) (dim first length : ℕ) : (sh.cut dim first length).lengths = sh.lengths.set dim length := by
  apply List.ext_getElem
  · simp [Shape.cut, Shape.lengths]
  · intro i hi hi'
    rw [List.getElem_set]
    simp only [Shape.cut, Shape.lengths, List.getElem_map, List.getElem_modify]
    split <;> rfl

theorem modify_mem {ls idx : List ℕ} {dim length length' : ℕ} {f : ℕ → ℕ} (hf : ∀ i < length, f i < length')
    (hidx : idx ∈ indices (ls.set dim length)) : idx.modify dim f ∈ indices (ls.set dim length') := by
  rw [mem_indices] at hidx ⊢
  induction ls generalizing dim idx with
  | nil =>
    rw [List.set_nil, List.forall₂_nil_right_iff] at hidx
    rw [hidx]
    simp
  | cons l ls ih =>
    cases dim with
    | zero =>
      rw [List.set_cons_zero] at hidx
      obtain ⟨i, is, hi, his, rfl⟩ := List.forall₂_cons_right_iff.mp hidx
      exact List.Forall₂.cons (hf i hi) his
    | succ dim =>
      rw [List.set_cons_succ] at hidx
      obtain ⟨i, is, hi, his, rfl⟩ := List.forall₂_cons_right_iff.mp hidx
      exact List.Forall₂.cons hi (ih his)

theorem set_getD {l : List ℕ} (dim : ℕ) : l.set dim (l.getD dim 1) = l := by
  apply List.ext_getElem
  · simp
  · intro i hi hi'
    rw [List.getElem_set]
    split
    · next heq =>
      subst heq
      exact List.getD_eq_getElem _ _ hi'
    · rfl

theorem fills_set (l : List ℕ) (dim n : ℕ) : Fills (l.set dim 1) (l.set dim n) := by
  induction l generalizing dim with
  | nil => exact List.Forall₂.nil
  | cons c l ih =>
    cases dim with
    | zero => exact List.Forall₂.cons (Or.inr rfl) (fills_refl _)
    | succ dim => exact List.Forall₂.cons (Or.inl rfl) (ih dim)

theorem coordinate_set {l idx : List ℕ} {dim n : ℕ} (hidx : idx ∈ indices (l.set dim n)) :
    coordinate (l.set dim 1) idx = idx.modify dim fun _ => 0 := by
  rw [mem_indices] at hidx
  induction l generalizing dim idx with
  | nil =>
    rw [List.set_nil, List.forall₂_nil_right_iff] at hidx
    rw [hidx]
    simp [coordinate]
  | cons c l ih =>
    cases dim with
    | zero =>
      rw [List.set_cons_zero] at hidx
      obtain ⟨i, is, hi, his, rfl⟩ := List.forall₂_cons_right_iff.mp hidx
      rw [List.set_cons_zero, List.modify_zero_cons]
      show 0 :: coordinate l is = _
      rw [coordinate_self (mem_indices.mpr his)]
    | succ dim =>
      rw [List.set_cons_succ] at hidx
      obtain ⟨i, is, hi, his, rfl⟩ := List.forall₂_cons_right_iff.mp hidx
      rw [List.set_cons_succ, List.modify_succ_cons, ← ih his]
      show (if c = 1 then 0 else i) :: _ = _
      congr 1
      split <;> omega

theorem set_pos {x : NdArray} {dim length : ℕ} (hlength : 0 < length) : ∀ n ∈ x.shape.lengths.set dim length, 0 < n := by
  intro n hn
  obtain hn | rfl := List.mem_or_eq_of_mem_set hn
  · exact x.length_pos n hn
  · exact hlength

/-- A slice of an array. -/
theorem reshape_cut {x : NdArray} {dim first length : ℕ} (hdim : dim < x.shape.dimensions.length) (hlength : 0 < length)
    (hfit : first + length ≤ (x.shape.dim dim).length) :
    ∃ y, x.reshape (x.shape.cut dim first length) = some y ∧ y.accessor = x.accessor ∧ y.shape = x.shape.cut dim first length := by
  have hpos : ∀ n ∈ (x.shape.cut dim first length).lengths, 0 < n := by
    rw [lengths_cut]
    exact set_pos hlength
  apply reshape_eq hpos
  have htop : (x.shape.cut dim first length).lengths.map (· - 1) ∈ indices (x.shape.lengths.set dim length) := by
    rw [← lengths_cut x.shape dim first length, mem_indices, List.forall₂_map_left_iff, List.forall₂_same]
    intro n hn
    have := hpos n hn
    omega
  have hmem := @modify_mem _ _ _ _ (x.shape.dim dim).length (· + first) (fun i hi => by omega) htop
  rw [Shape.length_dim, set_getD] at hmem
  have haddress := x.address_lt hmem
  have hrank : ((x.shape.cut dim first length).lengths.map (· - 1)).length = x.shape.dimensions.length := by
    rw [List.length_map, lengths_cut, List.length_set, Shape.lengths, List.length_map]
  rw [← address_cut hdim first length hrank, Shape.address] at haddress
  have hmap : (x.shape.cut dim first length).lengths.map (· - 1) = (x.shape.cut dim first length).dimensions.map (·.length - 1) := by
    rw [Shape.lengths, List.map_map]
    rfl
  rw [hmap] at haddress
  rw [Shape.space, spaceRequired_eq]
  omega

theorem flatIndex_inj {ns idx idx' : List ℕ} (hidx : idx ∈ indices ns) (hidx' : idx' ∈ indices ns)
    (h : flatIndex ns idx = flatIndex ns idx') : idx = idx' := by
  rw [← coords_flatIndex hidx, h, coords_flatIndex hidx']

theorem modify_modify {l : List ℕ} (dim : ℕ) (f g : ℕ → ℕ) : (l.modify dim f).modify dim g = l.modify dim (g ∘ f) := by
  apply List.ext_getElem
  · simp
  · intro i hi hi'
    simp only [List.getElem_modify]
    split <;> rfl

theorem getElem?_lt {ls idx : List ℕ} {dim n i : ℕ} (hidx : idx ∈ indices (ls.set dim n)) (hi : idx[dim]? = some i) : i < n := by
  obtain ⟨hlt, rfl⟩ := List.getElem?_eq_some_iff.mp hi
  have hlen := (mem_indices.mp hidx).length_eq
  have hbound := (List.forall₂_iff_get.mp (mem_indices.mp hidx)).2 dim hlt (by omega)
  simpa using hbound

/-- The slices of the result up to position `cur` are written. -/
def Written (x result : NdArray) (axis : ℕ) (order : List ℕ) (m m' : Data V) (cur : ℕ) : Prop :=
  (∀ idx ∈ indices result.shape.lengths, (∀ i ∈ idx[axis]?, i < cur) → m' result.accessor (flatIndex result.shape.lengths idx) =
    m x.accessor (x.shape.address (idx.modify axis fun i => order.getD i 0))) ∧
  m' x.accessor = m x.accessor

section
variable {result : NdArray} {axis size : ℕ} (haxis : axis < x.shape.dimensions.length)
  (hresult : result.shape = plainShape (x.shape.lengths.set axis size)) (hne : x.accessor ≠ result.accessor)

include haxis hresult hne

theorem repeatSlice_spec (dflt : Bool) {repeats order : List ℕ} {cur i c : ℕ} (hi : i < (x.shape.dim axis).length)
    (hrepeats : repeats.getD i 0 = c) (hc : 0 < c) (hfit : cur + c ≤ size)
    (horder : ∀ j < c, order.getD (cur + j) 0 = i) {m m' : Data V} (hm : Written x result axis order m m' cur) :
    ∃ m'', repeatSlice dflt x result axis repeats (cur, m') i = some (cur + c, m'') ∧
      Written x result axis order m m'' (cur + c) := by
  have hlengths : result.shape.lengths = x.shape.lengths.set axis size := by rw [hresult, lengths_plainShape]
  have hlen : x.shape.lengths.length = x.shape.dimensions.length := List.length_map _
  have haxis' : axis < result.shape.dimensions.length := by
    have := congrArg List.length hlengths
    rw [Shape.lengths, List.length_map, List.length_set] at this
    omega
  have hdim : (result.shape.dim axis).length = size := by
    rw [Shape.length_dim, hlengths, List.getD_eq_getElem _ _ (by rw [List.length_set]; omega), List.getElem_set_self]
  obtain ⟨lv, hlv, hlvacc, hlvsh⟩ := @reshape_cut x axis i 1 haxis Nat.one_pos hi
  obtain ⟨xv, hxv, hxvacc, hxvsh⟩ := @reshape_cut result axis cur c haxis' hc (by rwa [hdim])
  have hlvlengths : lv.shape.lengths = x.shape.lengths.set axis 1 := by rw [hlvsh, lengths_cut]
  have hxvlengths : xv.shape.lengths = x.shape.lengths.set axis c := by rw [hxvsh, lengths_cut, hlengths, List.set_set]
  have hfills : Fills lv.shape.lengths xv.shape.lengths := by
    rw [hlvlengths, hxvlengths]
    exact fills_set _ _ _
  have htp := toBroadcastShapes_of_fills lv.length_pos xv.length_pos hfills
  obtain ⟨in1, hin1, hin1acc, hin1sh⟩ := make_broadcastShape hfills.broadcastsTo (x := lv) rfl xv.length_pos
  obtain ⟨out, hout, houtacc, houtsh⟩ := make_broadcastShape (fills_refl _).broadcastsTo (x := xv) rfl xv.length_pos
  have houtlengths : out.shape.lengths = x.shape.lengths.set axis c := by rw [houtsh, lengths_broadcastShape, hxvlengths]
  have hrank : ∀ {idx n}, idx ∈ indices (x.shape.lengths.set axis n) → idx.length = x.shape.dimensions.length := by
    intro idx n hidx
    rw [(mem_indices.mp hidx).length_eq, List.length_set, hlen]
  have hinto : ∀ {idx}, idx ∈ indices (x.shape.lengths.set axis c) →
      idx.modify axis (· + cur) ∈ indices (x.shape.lengths.set axis size) :=
    fun hidx => modify_mem (fun j hj => by omega) hidx
  have hsame : result.shape.dimensions.length = x.shape.dimensions.length := by
    have := congrArg List.length hlengths
    rwa [Shape.lengths, List.length_map, List.length_set, hlen] at this
  -- where the slice of the result is
  have houtaddress : ∀ idx ∈ indices (x.shape.lengths.set axis c),
      out.shape.address idx = flatIndex (x.shape.lengths.set axis size) (idx.modify axis (· + cur)) := by
    intro idx hidx
    rw [houtsh, address_broadcast_self xv.length_pos (by rwa [hxvlengths]), hxvsh, address_cut haxis' _ _ ((hrank hidx).trans hsame.symm),
      hresult, address_plainShape]
  have hin1address : ∀ idx ∈ indices (x.shape.lengths.set axis c), in1.shape.address idx = x.shape.address (idx.modify axis fun _ => i) := by
    intro idx hidx
    rw [hin1sh, address_broadcast_fills lv.length_pos hfills (by rwa [hxvlengths]), hlvlengths, coordinate_set hidx, hlvsh,
      address_cut haxis _ _ (by rw [List.length_modify]; exact hrank hidx), modify_modify]
    congr 2
    funext j
    exact Nat.zero_add i
  have hinj : ∀ idx ∈ indices (x.shape.lengths.set axis c), ∀ idx' ∈ indices (x.shape.lengths.set axis c),
      out.shape.address idx = out.shape.address idx' → idx = idx' := by
    intro idx hidx idx' hidx' heq
    rw [houtaddress idx hidx, houtaddress idx' hidx'] at heq
    have hback := congrArg (List.modify · axis (· - cur)) (flatIndex_inj (hinto hidx) (hinto hidx') heq)
    have hid : (fun j => j - cur) ∘ (fun j => j + cur) = id := funext fun j => Nat.add_sub_cancel j cur
    simpa only [modify_modify, hid, List.modify_id] using hback
  have hnodup : out.shape.addresses.Nodup := by
    rw [Shape.addresses_eq, houtlengths]
    exact (nodup_indices _).map_on hinj
  have hacc : in1.accessor ≠ out.accessor := by rwa [hin1acc, houtacc, hlvacc, hxvacc]
  obtain ⟨m'', hm'', hcopy, hframe⟩ := @applyCopy_spec V dflt in1 out
    (by rw [hin1sh, lengths_broadcastShape, hxvlengths, houtlengths]) hnodup hacc m'
  refine ⟨m'', ?_, ?_, ?_⟩
  · have hslice := @subviewRange_slice result axis haxis' cur c hc (by rwa [hdim])
    unfold repeatSlice
    dsimp only
    rw [subviewRange_el haxis hi, hlv, Option.bind_some, hrepeats, Nat.cast_add, hslice, hxv, Option.bind_some, htp, Option.bind_some,
      hin1, Option.bind_some, hout, Option.bind_some, hm'', Option.map_some]
  · intro idx hidx hcur
    rw [hlengths] at hidx ⊢
    have hget : ∃ j, idx[axis]? = some j := ⟨_, List.getElem?_eq_getElem (by rw [hrank hidx]; exact haxis)⟩
    obtain ⟨j, hj⟩ := hget
    have hjcur := hcur j hj
    obtain hbefore | hafter := Nat.lt_or_ge j cur
    · have hkeep := hframe result.accessor (flatIndex (x.shape.lengths.set axis size) idx) (by
        intro _ hmem
        rw [Shape.addresses_eq, houtlengths] at hmem
        obtain ⟨idx', hidx', heq⟩ := List.mem_map.mp hmem
        rw [houtaddress idx' hidx'] at heq
        have hsplit := flatIndex_inj (hinto hidx') hidx heq
        rw [← hsplit, List.getElem?_modify_eq] at hj
        obtain ⟨j', -, rfl⟩ := Option.map_eq_some_iff.mp hj
        omega)
      have hold := hm.1 idx (by rwa [hlengths]) (fun j' hj' => by
        obtain rfl := Option.some.inj (hj.symm.trans hj')
        exact hbefore)
      rw [hlengths] at hold
      rw [hkeep, hold]
    · have hmem : idx.modify axis (· - cur) ∈ indices (x.shape.lengths.set axis c) := by
        have hshort : idx ∈ indices (x.shape.lengths.set axis (cur + c)) := by
          have := @modify_mem _ _ _ _ (cur + c) (fun k => if k < cur + c then k else 0) (fun k _ => by split <;> omega) hidx
          have hself : idx.modify axis (fun k => if k < cur + c then k else 0) = idx.modify axis id := modify_congr fun k hk => by
            obtain rfl := Option.some.inj (hj.symm.trans hk)
            exact if_pos hjcur
          rwa [hself, List.modify_id] at this
        exact modify_mem (fun k hk => by omega) hshort
      have hback : (idx.modify axis (· - cur)).modify axis (· + cur) = idx := by
        have hself : idx.modify axis ((fun k => k + cur) ∘ fun k => k - cur) = idx.modify axis id := modify_congr fun k hk => by
          obtain rfl := Option.some.inj (hj.symm.trans hk)
          exact Nat.sub_add_cancel hafter
        rw [modify_modify, hself, List.modify_id]
      have hvalue := hcopy _ (by rwa [houtlengths])
      rw [houtaddress _ hmem, hback, hin1address _ hmem, modify_modify, houtacc, hxvacc, hin1acc, hlvacc, hm.2] at hvalue
      rw [hvalue]
      congr 2
      apply modify_congr
      intro k hk
      obtain rfl := Option.some.inj (hj.symm.trans hk)
      have := horder (j - cur) (by omega)
      rw [Nat.add_sub_cancel' hafter] at this
      exact this.symm
  · funext k
    rw [hframe x.accessor k (fun heq => absurd (heq.trans (houtacc.trans hxvacc)) hne), hm.2]

end

theorem repeatAxis_right (dflt : Bool) {repeats : List ℕ} {axis : ℕ} (haxis : axis < x.shape.dimensions.length)
    (hfresh : fresh ≠ x.accessor.id) (hfit : (Counts.cyclic repeats).Fits (x.shape.dim axis).length) (m : Data V) :
    ∃ y m', repeatAxis fresh dflt x repeats axis m = some (y, m') ∧
      AxisRight x (Counts.cyclic repeats).count axis m y m' := by
  have hlen : x.shape.lengths.length = x.shape.dimensions.length := List.length_map _
  have hpos := x.dim_pos haxis
  have hat : x.shape.dim? axis = some (x.shape.dim axis) := by
    rw [Shape.dim?, List.getElem?_eq_getElem haxis, Shape.dim, List.getD_eq_getElem _ _ haxis]
  have hone := hfit.one_le hpos
  let count := (Counts.cyclic repeats).count
  let order := repeated count (x.shape.dim axis).length
  have hexpand : (if repeats.length ≠ (x.shape.dim axis).length then
      (List.range (x.shape.dim axis).length).map fun i => repeats.getD (i % repeats.length) 0 else repeats) =
        (List.range (x.shape.dim axis).length).map count := by
    split
    · rfl
    · next heq =>
      rw [not_not] at heq
      apply List.ext_getElem
      · rw [List.length_map, List.length_range, heq]
      · intro i hi hi'
        rw [List.getElem_map, List.getElem_range]
        show _ = repeats.getD (i % repeats.length) 0
        rw [Nat.mod_eq_of_lt hi, List.getD_eq_getElem _ _ hi]
  have hsize : order.length = ((List.range (x.shape.dim axis).length).map count).sum := length_repeated _ _
  have hsizepos : 0 < order.length := hpos.trans_le (le_length_repeated fun i _ => hone i)
  have hposT : ∀ n ∈ (plainShape (x.shape.lengths.set axis order.length)).lengths, 0 < n := by
    rw [lengths_plainShape]
    exact set_pos hsizepos
  obtain ⟨result, hcreate, hacc, hresult⟩ := create_eq fresh hposT
  have hne : x.accessor ≠ result.accessor := fun heq => hfresh (by rw [heq, hacc])
  have hlengths : result.shape.lengths = x.shape.lengths.set axis order.length := by rw [hresult, lengths_plainShape]
  have hloop : ∀ n ≤ (x.shape.dim axis).length, ∃ m', (List.range n).foldlM
      (repeatSlice dflt x result axis ((List.range (x.shape.dim axis).length).map count)) (0, m) =
        some ((repeated count n).length, m') ∧ Written x result axis order m m' (repeated count n).length := by
    intro n hn
    induction n with
    | zero =>
      refine ⟨m, rfl, fun idx hidx h => ?_, rfl⟩
      have hlt : axis < idx.length := by rw [(mem_indices.mp hidx).length_eq, hlengths, List.length_set, hlen]; exact haxis
      exact absurd (h _ (List.getElem?_eq_getElem hlt)) (Nat.not_lt_zero _)
    | succ n ih =>
      obtain ⟨m', hm', hw⟩ := ih (by omega)
      have hmono := length_repeated_mono count hn
      rw [repeated_succ, List.length_append, List.length_replicate] at hmono ⊢
      have hget : ((List.range (x.shape.dim axis).length).map count).getD n 0 = count n := by
        rw [List.getD_eq_getElem _ _ (by rw [List.length_map, List.length_range]; exact hn), List.getElem_map, List.getElem_range]
      obtain ⟨m'', hm'', hw'⟩ := repeatSlice_spec haxis hresult hne dflt hn hget (hone n) hmono
        (fun j hj => getD_repeated count hn (by omega) (by omega)) hw
      refine ⟨m'', ?_, hw'⟩
      rw [List.range_succ, List.foldlM_append, hm', Option.bind_eq_bind, Option.bind_some, List.foldlM_cons, hm'']
      rfl
  obtain ⟨m', hm', hw⟩ := hloop _ le_rfl
  refine ⟨result, m', ?_, hlengths, ?_⟩
  · unfold repeatAxis
    dsimp only
    rw [hat, Option.bind_some, if_neg (by rw [not_not]; exact Nat.mod_eq_zero_of_dvd hfit.1), hexpand, ← hsize, hcreate,
      Option.bind_some, List.length_map, List.length_range, hm']
    rfl
  · intro idx hidx
    have hflat : result.shape.address idx = flatIndex result.shape.lengths idx := by rw [hresult, address_plainShape, lengths_plainShape]
    rw [hflat, hw.1 idx hidx fun i hi => getElem?_lt (hlengths ▸ hidx) hi]

/-- A negative axis is counted on behind the last one. -/
theorem repeatAxis_lost (dflt : Bool) (repeats : List ℕ) {a : ℤ} (ha : a < 0) (m : Data V) :
    repeatAxis fresh dflt x repeats (if a < 0 then (x.shape.dimensions.length : ℤ) - a else a).toNat m = none := by
  rw [repeatAxis, Shape.dim?, if_pos ha, List.getElem?_eq_none (by omega), Option.bind_none]

end

/-! ## Results -/

/-- `Repeat` is right as long as it translates the axis. -/
theorem repeat_iff (x : NdArray) (hrank : x.shape.dimensions ≠ []) (repeats : Counts) (axis : Option ℤ)
    (haxis : ∀ a ∈ axis, -(x.shape.dimensions.length : ℤ) ≤ a ∧ a < x.shape.dimensions.length)
    (hfit : repeats.Fits (axis.elim x.shape.elements fun a => (x.shape.dim (x.shape.axisOf a)).length)) :
    RepeatRight x repeats axis ↔ repeats.Handles axis := by
  constructor
  · intro h
    cases repeats with
    | each n =>
      intro a ha
      by_contra hlow
      obtain rfl : axis = some a := ha
      obtain ⟨y, m', hy, -⟩ := h Unit (x.accessor.id + 1) true (fun _ _ => ()) (by omega)
      rw [repeatArray, repeatEach_lost true n (by omega)] at hy
      cases hy
    | cyclic l =>
      intro a ha
      by_contra hlow
      obtain rfl : axis = some a := ha
      obtain ⟨y, m', hy, -⟩ := h Unit (x.accessor.id + 1) true (fun _ _ => ()) (by omega)
      rw [repeatArray, Option.elim_some, repeatAxis_lost true l (by omega)] at hy
      cases hy
  · intro h V fresh dflt m hfresh
    cases repeats with
    | each n =>
      cases axis with
      | none => exact repeatEach_flat dflt hfresh hfit m
      | some a => exact repeatEach_axis dflt hfresh hfit (h a rfl) hrank (haxis a rfl).2 m
    | cyclic l =>
      cases axis with
      | none => exact repeatFlat_right hfresh hfit m
      | some a =>
        have hnonneg : 0 ≤ a := h a rfl
        have hreal : (if a < 0 then (x.shape.dimensions.length : ℤ) - a else a).toNat = x.shape.axisOf a := by
          rw [Shape.axisOf, if_neg (by omega), if_neg (by omega)]
        have hlt := axisOf_lt (haxis a rfl).1 (haxis a rfl).2
        obtain ⟨y, m', hy, hright⟩ := repeatAxis_right dflt hlt hfresh hfit m
        refine ⟨y, m', ?_, hright⟩
        rw [repeatArray, Option.elim_some, hreal, hy]

/-- Two rows of three elements, stored by columns. -/
def tableView : NdArray := ⟨⟨0, 6⟩, ⟨0, [⟨2, 1⟩, ⟨3, 2⟩]⟩, by decide, by decide⟩

theorem repeat_right_rows : RepeatRight tableView (.cyclic [1, 2]) (some 0) :=
  (repeat_iff tableView (by decide) (.cyclic [1, 2]) (some 0)
    (by
      intro a ha
      obtain rfl := Option.some.inj ha
      exact ⟨by decide, by decide⟩)
    ⟨by decide, by decide⟩).mpr fun a ha => (Option.some.inj ha).le

/-- The first axis, counted from the end. -/
theorem not_repeat_right_negative : -(tableView.shape.dimensions.length : ℤ) ≤ -2 ∧
    (Counts.each 2).Fits (tableView.shape.dim (tableView.shape.axisOf (-2))).length ∧
    ¬ RepeatRight tableView (.each 2) (some (-2)) := by
  refine ⟨by decide, one_le_two, fun h => ?_⟩
  obtain ⟨y, m', hy, -⟩ := h Unit 1 true (fun _ _ => ()) (by decide)
  rw [repeatArray, repeatEach_lost true 2 (by decide)] at hy
  cases hy

end Bohrium.NumCil
