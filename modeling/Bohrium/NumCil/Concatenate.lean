import Bohrium.NumCil.Repeat

/-! # Concatenation

`NdArray.Concatenate`. Arrays of a lower rank get new axes in front, and the pieces are copied into slices of the
result, one after the other. -/
namespace Bohrium.NumCil
open Strided Walk Layout
set_option autoImplicit false

/-! ## The method -/

section
variable {V : Type}

/-- `lv = lv.Subview(Range.NewAxis, 0)`, so many times. -/
def NdArray.extendBy (x : NdArray) : ℕ → Option NdArray
  | 0 => some x
  | n + 1 => (x.subviewRange .newAxis 0 false).bind fun lv => lv.extendBy n

/-- `while (lv.Shape.Dimensions.LongLength <= axis)`. -/
def NdArray.extend (axis : ℕ) (x : NdArray) : Option NdArray := x.extendBy (axis + 1 - x.shape.dimensions.length)

/-- The arrays for which it throws. -/
def incompatible (axis rank : ℕ) (reslv a : NdArray) : Bool :=
  a.shape.dimensions.length ≠ reslv.shape.dimensions.length ||
    (List.range rank).any fun i => i ≠ axis && (reslv.shape.dim i).length ≠ (a.shape.dim i).length

/-- One piece, copied behind `startOffset`. -/
def concatenateStep (dflt : Accessor → Bool) (reslv : NdArray) (axis : ℕ) (q : ℕ × Data V) (a : NdArray) : Option (ℕ × Data V) :=
  let endOffset := q.1 + (a.shape.dim axis).length
  (reslv.subviewRange (.slice q.1 endOffset) axis false).bind fun lv =>
  (applyCopy (dflt a.accessor) a lv q.2).map (endOffset, ·)

/-- `Concatenate(NdArray<T>[] args, long axis)` for two arrays and more. -/
def concatenateAll (fresh : ℕ) (dflt : Accessor → Bool) (first : NdArray) (args : List NdArray) (axis : ℕ) (m : Data V) :
    Option (NdArray × Data V) :=
  let basicShape := ((args.find? fun a => a.shape.elements ≠ 1).getD first).shape
  (args.mapM (NdArray.extend axis)).bind fun ext =>
  let newAxisSize := (ext.map fun a => (a.shape.dim axis).length).sum
  let dims := basicShape.lengths.set (min axis (basicShape.lengths.length - 1)) newAxisSize
  (NdArray.create fresh (plainShape dims)).bind fun res =>
  (res.extend axis).bind fun reslv =>
  if ext.any (incompatible axis dims.length reslv) then none else
  (ext.foldlM (concatenateStep dflt reslv axis) (0, m)).map fun q => (res, q.2)

/-- `Concatenate(NdArray<T>[] args, long axis)`, `none` if it throws. -/
def concatenate (fresh : ℕ) (dflt : Accessor → Bool) (args : List NdArray) (axis : ℤ) (m : Data V) : Option (NdArray × Data V) :=
  match args with
  | [] => none
  | [x] => some (x, m)
  | first :: _ => if axis < 0 then none else concatenateAll fresh dflt first args axis.toNat m

end

/-! ## New axes in front -/

def Shape.front (sh : Shape) (n : ℕ) : Shape := ⟨sh.offset, List.replicate n ⟨1, 0⟩ ++ sh.dimensions⟩

theorem Shape.lengths_front (sh : Shape) (n : ℕ) : (sh.front n).lengths = List.replicate n 1 ++ sh.lengths := by
  rw [Shape.lengths, Shape.front, List.map_append, List.map_replicate]
  rfl

theorem Shape.front_succ (sh : Shape) (n : ℕ) : (sh.newAxis 0).front n = sh.front (n + 1) := by
  rw [Shape.front, Shape.newAxis, List.insertIdx_zero, List.append_cons, ← List.replicate_succ']
  rfl

theorem Shape.space_front (sh : Shape) (n : ℕ) : (sh.front n).space = sh.space := by
  induction n generalizing sh with
  | zero => rfl
  | succ n ih => rw [← front_succ, ih, space_newAxis _ (Nat.zero_le _)]

theorem displacement_front (ds : List ShapeDimension) (n : ℕ) (idx : List ℕ) :
    displacement (List.replicate n ⟨1, 0⟩ ++ ds) idx = displacement ds (idx.drop n) := by
  induction n generalizing idx with
  | zero => rfl
  | succ n ih =>
    cases idx with
    | nil => cases ds <;> rfl
    | cons i idx =>
      rw [List.replicate_succ, List.cons_append, displacement, ih, List.drop_succ_cons, Nat.mul_zero, Nat.zero_add]

theorem Shape.address_front (sh : Shape) (n : ℕ) (idx : List ℕ) : (sh.front n).address idx = sh.address (idx.drop n) := by
  rw [Shape.address, Shape.address, ← displacement_front _ n]
  rfl

theorem Shape.front_pos {sh : Shape} (hpos : ∀ d ∈ sh.dimensions, 0 < d.length) (n : ℕ) : ∀ d ∈ (sh.front n).dimensions, 0 < d.length := by
  intro d hd
  obtain hd | hd := List.mem_append.mp hd
  · rw [List.eq_of_mem_replicate hd]
    exact Nat.one_pos
  · exact hpos d hd

/-- The array with axes of length one in front, up to the axis. -/
def NdArray.widen (x : NdArray) (axis : ℕ) : NdArray where
  accessor := x.accessor
  shape := x.shape.front (axis + 1 - x.shape.dimensions.length)
  positive := Shape.front_pos x.positive _
  fits := by
    rw [Shape.space_front]
    exact x.fits

theorem extendBy_eq (x : NdArray) (n : ℕ) :
    ∃ y, x.extendBy n = some y ∧ y.accessor = x.accessor ∧ y.shape = x.shape.front n := by
  induction n generalizing x with
  | zero => exact ⟨x, rfl, rfl, rfl⟩
  | succ n ih =>
    have hpos : ∀ l ∈ (x.shape.newAxis 0).lengths, 0 < l := by
      have := Shape.front_pos x.positive 1
      rw [← Shape.front_succ] at this
      intro l hl
      obtain ⟨d, hd, rfl⟩ := List.mem_map.mp hl
      exact this d hd
    have hfit : (x.shape.newAxis 0).space ≤ x.accessor.size := by
      rw [Shape.space_newAxis _ (Nat.zero_le _)]
      exact x.fits
    obtain ⟨lv, hlv, hacc, hsh⟩ := reshape_eq hpos hfit
    obtain ⟨y, hy, hyacc, hysh⟩ := ih lv
    refine ⟨y, ?_, hyacc.trans hacc, ?_⟩
    · rw [NdArray.extendBy, subviewRange_newAxis (Nat.zero_le _), hlv, Option.bind_some, hy]
    · rw [hysh, hsh, Shape.front_succ]

theorem extend_eq (axis : ℕ) (x : NdArray) : x.extend axis = some (x.widen axis) := by
  obtain ⟨y, hy, hacc, hsh⟩ := extendBy_eq x (axis + 1 - x.shape.dimensions.length)
  rw [NdArray.extend, hy]
  obtain ⟨acc, sh, h1, h2⟩ := y
  dsimp only at hacc hsh
  subst hacc hsh
  rfl

theorem mapM_extend (axis : ℕ) (args : List NdArray) : args.mapM (NdArray.extend axis) = some (args.map (·.widen axis)) := by
  induction args with
  | nil => rfl
  | cons x args ih =>
    rw [List.mapM_cons, extend_eq, ih]
    rfl

theorem rank_widen (x : NdArray) (axis : ℕ) :
    (x.widen axis).shape.dimensions.length = max (axis + 1) x.shape.dimensions.length := by
  show (List.replicate _ _ ++ _).length = _
  rw [List.length_append, List.length_replicate]
  omega

theorem axis_lt_widen (x : NdArray) (axis : ℕ) : axis < (x.widen axis).shape.dimensions.length := by
  rw [rank_widen]
  omega

/-! ## What it is for -/

/-- The lengths of an axis, one array after the other. -/
def extents (axis : ℕ) (args : List NdArray) : ℕ := (args.map fun a => (a.shape.dim axis).length).sum

/-- The arrays agree outside the axis. -/
def Joinable (axis : ℕ) (args : List NdArray) : Prop :=
  ∀ a ∈ args, ∀ b ∈ args, a.shape.lengths.set axis 0 = b.shape.lengths.set axis 0

/-- The arrays stand in the result one after the other, from position `start` of the axis on. -/
def Stands {V : Type} (result : NdArray) (axis : ℕ) (m m' : Data V) : ℕ → List NdArray → Prop
  | _, [] => True
  | start, a :: args =>
    (∀ idx ∈ indices a.shape.lengths,
      m' result.accessor (result.shape.address (idx.modify axis (· + start))) = m a.accessor (a.shape.address idx)) ∧
    Stands result axis m m' (start + (a.shape.dim axis).length) args

/-! ## One piece -/

section
variable {V : Type} {reslv a : NdArray} {axis start : ℕ} (haxis : axis < reslv.shape.dimensions.length)
  (hfit : start + (a.shape.dim axis).length ≤ (reslv.shape.dim axis).length) (ha : axis < a.shape.dimensions.length)

include haxis hfit ha

theorem slice_eq : ∃ lv, reslv.subviewRange (.slice start (start + (a.shape.dim axis).length : ℕ)) axis false = some lv ∧
    lv.accessor = reslv.accessor ∧ lv.shape = reslv.shape.cut axis start (a.shape.dim axis).length := by
  obtain ⟨lv, hlv, hacc, hsh⟩ := reshape_cut haxis (a.dim_pos ha) hfit
  refine ⟨lv, ?_, hacc, hsh⟩
  rw [Nat.cast_add, subviewRange_slice haxis (a.dim_pos ha) hfit, hlv]

theorem concatenateStep_none (dflt : Accessor → Bool) (h : a.shape.lengths ≠ reslv.shape.lengths.set axis (a.shape.dim axis).length)
    (m : Data V) : concatenateStep dflt reslv axis (start, m) a = none := by
  obtain ⟨lv, hlv, -, hsh⟩ := slice_eq haxis hfit ha
  unfold concatenateStep
  dsimp only
  rw [hlv, Option.bind_some, applyCopy, checkTarget_eq, if_neg, Option.map_none, Option.map_none]
  rw [hsh, lengths_cut]
  exact h.symm

/-- The elements of the result before the slice, and the other arrays, stay as they are. -/
theorem concatenateStep_some (dflt : Accessor → Bool) (h : a.shape.lengths = reslv.shape.lengths.set axis (a.shape.dim axis).length)
    (hinj : ∀ idx ∈ indices reslv.shape.lengths, ∀ idx' ∈ indices reslv.shape.lengths,
      reslv.shape.address idx = reslv.shape.address idx' → idx = idx')
    (hne : a.accessor ≠ reslv.accessor) (m : Data V) :
    ∃ m', concatenateStep dflt reslv axis (start, m) a = some (start + (a.shape.dim axis).length, m') ∧
      (∀ idx ∈ indices a.shape.lengths,
        m' reslv.accessor (reslv.shape.address (idx.modify axis (· + start))) = m a.accessor (a.shape.address idx)) ∧
      (∀ idx ∈ indices reslv.shape.lengths, (∀ i ∈ idx[axis]?, i < start) →
        m' reslv.accessor (reslv.shape.address idx) = m reslv.accessor (reslv.shape.address idx)) ∧
      ∀ acc, acc ≠ reslv.accessor → m' acc = m acc := by
  obtain ⟨lv, hlv, hacc, hsh⟩ := slice_eq haxis hfit ha
  have hlengths : lv.shape.lengths = a.shape.lengths := by rw [hsh, lengths_cut, ← h]
  have hinto : ∀ {idx}, idx ∈ indices a.shape.lengths → idx.modify axis (· + start) ∈ indices reslv.shape.lengths := by
    intro idx hidx
    rw [h] at hidx
    have hmem := @modify_mem _ _ _ _ (reslv.shape.dim axis).length (· + start) (fun i hi => by omega) hidx
    rwa [Shape.length_dim, set_getD] at hmem
  have haddress : ∀ idx ∈ indices a.shape.lengths, lv.shape.address idx = reslv.shape.address (idx.modify axis (· + start)) := by
    intro idx hidx
    have hlen := (mem_indices.mp hidx).length_eq
    rw [hsh, address_cut haxis]
    rw [hlen, h, List.length_set, Shape.lengths, List.length_map]
  have hback : ∀ {idx idx' : List ℕ}, idx.modify axis (· + start) = idx'.modify axis (· + start) → idx = idx' := by
    intro idx idx' heq
    have hid : (fun j => j - start) ∘ (fun j => j + start) = id := funext fun j => Nat.add_sub_cancel j start
    simpa only [modify_modify, hid, List.modify_id] using congrArg (List.modify · axis (· - start)) heq
  have hnodup : lv.shape.addresses.Nodup := by
    rw [Shape.addresses_eq, hlengths]
    refine (nodup_indices _).map_on fun idx hidx idx' hidx' heq => ?_
    rw [haddress idx hidx, haddress idx' hidx'] at heq
    exact hback (hinj _ (hinto hidx) _ (hinto hidx') heq)
  obtain ⟨m', hm', hcopy, hframe⟩ := applyCopy_spec (dflt a.accessor) hlengths.symm hnodup (hacc ▸ hne) m
  refine ⟨m', ?_, ?_, ?_, ?_⟩
  · unfold concatenateStep
    dsimp only
    rw [hlv, Option.bind_some, hm', Option.map_some]
  · intro idx hidx
    have hvalue := hcopy idx (hlengths ▸ hidx)
    rwa [hacc, haddress idx hidx] at hvalue
  · intro idx hidx hbefore
    apply hframe
    rintro - hmem
    rw [Shape.addresses_eq, hlengths] at hmem
    obtain ⟨idx', hidx', heq⟩ := List.mem_map.mp hmem
    rw [haddress idx' hidx'] at heq
    have hsame := hinj _ (hinto hidx') _ hidx heq
    -- the element would stand in the slice
    have hlt : axis < idx'.length := by rwa [(mem_indices.mp hidx').length_eq, Shape.lengths, List.length_map]
    have hat := hbefore (idx'[axis] + start) (by
      rw [← hsame, Option.mem_def, List.getElem?_modify, List.getElem?_eq_getElem hlt, Option.map_eq_map, Option.map_some, if_pos rfl])
    omega
  · intro acc hacc'
    funext k
    exact hframe acc k fun heq => absurd (heq.trans hacc) hacc'

end

/-! ## All pieces -/

section
variable {V : Type} {reslv : NdArray} {axis : ℕ}

theorem Stands.congr {m m₁ m' : Data V} {start : ℕ} {args : List NdArray} (hm : ∀ a ∈ args, m₁ a.accessor = m a.accessor)
    (h : Stands reslv axis m₁ m' start args) : Stands reslv axis m m' start args := by
  induction args generalizing start with
  | nil => trivial
  | cons a args ih =>
    rw [List.forall_mem_cons] at hm
    obtain ⟨hpiece, hrest⟩ := h
    refine ⟨fun idx hidx => ?_, ih hm.2 hrest⟩
    rw [hpiece idx hidx, hm.1]

theorem extents_cons (a : NdArray) (args : List NdArray) : extents axis (a :: args) = (a.shape.dim axis).length + extents axis args := by
  rw [extents, List.map_cons, List.sum_cons]
  rfl

variable (haxis : axis < reslv.shape.dimensions.length)
  (hinj : ∀ idx ∈ indices reslv.shape.lengths, ∀ idx' ∈ indices reslv.shape.lengths,
    reslv.shape.address idx = reslv.shape.address idx' → idx = idx')
  (dflt : Accessor → Bool) {ext : List NdArray} (hrank : ∀ a ∈ ext, axis < a.shape.dimensions.length)
  (hne : ∀ a ∈ ext, a.accessor ≠ reslv.accessor)

include haxis hinj hrank hne

theorem foldlM_some {start : ℕ} (hfit : start + extents axis ext ≤ (reslv.shape.dim axis).length)
    (hext : ∀ a ∈ ext, a.shape.lengths = reslv.shape.lengths.set axis (a.shape.dim axis).length) (m : Data V) :
    ∃ m', ext.foldlM (concatenateStep dflt reslv axis) (start, m) = some (start + extents axis ext, m') ∧
      Stands reslv axis m m' start ext ∧
      (∀ idx ∈ indices reslv.shape.lengths, (∀ i ∈ idx[axis]?, i < start) →
        m' reslv.accessor (reslv.shape.address idx) = m reslv.accessor (reslv.shape.address idx)) ∧
      ∀ acc, acc ≠ reslv.accessor → m' acc = m acc := by
  induction ext generalizing start m with
  | nil => exact ⟨m, rfl, trivial, fun _ _ _ => rfl, fun _ _ => rfl⟩
  | cons a ext ih =>
    rw [List.forall_mem_cons] at hrank hne hext
    rw [extents_cons] at hfit ⊢
    have hslice : start + (a.shape.dim axis).length ≤ (reslv.shape.dim axis).length := by omega
    have hrest : start + (a.shape.dim axis).length + extents axis ext ≤ (reslv.shape.dim axis).length := by omega
    obtain ⟨m₁, hstep, hpiece, hkept, hother⟩ := concatenateStep_some haxis hslice hrank.1 dflt hext.1 hinj hne.1 m
    obtain ⟨m', hrun, hstands, hkept', hother'⟩ := ih hrank.2 hne.2 hrest hext.2 m₁
    refine ⟨m', ?_, ⟨fun idx hidx => ?_, hstands.congr fun b hb => hother _ (hne.2 b hb)⟩, fun idx hidx hbefore => ?_, fun acc hacc => ?_⟩
    · rw [List.foldlM_cons, hstep, Option.bind_eq_bind, Option.bind_some, hrun, Nat.add_assoc]
    · have hmem : idx.modify axis (· + start) ∈ indices reslv.shape.lengths := by
        rw [hext.1] at hidx
        have := @modify_mem _ _ _ _ (reslv.shape.dim axis).length (· + start) (fun i hi => by omega) hidx
        rwa [Shape.length_dim, set_getD] at this
      rw [hkept' _ hmem, hpiece idx hidx]
      intro i hi
      rw [Option.mem_def, List.getElem?_modify, Option.map_eq_map, Option.map_eq_some_iff] at hi
      obtain ⟨j, hj, rfl⟩ := hi
      rw [hext.1] at hidx
      have := getElem?_lt hidx hj
      rw [if_pos rfl]
      omega
    · rw [hkept' idx hidx fun i hi => (hbefore i hi).trans_le (Nat.le_add_right _ _), hkept idx hidx hbefore]
    · rw [hother' acc hacc, hother acc hacc]

theorem foldlM_none {start : ℕ} (hfit : start + extents axis ext ≤ (reslv.shape.dim axis).length)
    (hext : ¬ ∀ a ∈ ext, a.shape.lengths = reslv.shape.lengths.set axis (a.shape.dim axis).length) (m : Data V) :
    ext.foldlM (concatenateStep dflt reslv axis) (start, m) = none := by
  induction ext generalizing start m with
  | nil => exact absurd (fun a ha => absurd ha List.not_mem_nil) hext
  | cons a ext ih =>
    rw [List.forall_mem_cons] at hrank hne hext
    rw [extents_cons] at hfit
    have hslice : start + (a.shape.dim axis).length ≤ (reslv.shape.dim axis).length := by omega
    rw [List.foldlM_cons]
    by_cases ha : a.shape.lengths = reslv.shape.lengths.set axis (a.shape.dim axis).length
    · obtain ⟨m₁, hstep, -⟩ := concatenateStep_some haxis hslice hrank.1 dflt ha hinj hne.1 m
      rw [hstep, Option.bind_eq_bind, Option.bind_some]
      exact ih hrank.2 hne.2 (by omega) (fun h => hext ⟨ha, h⟩) m₁
    · rw [concatenateStep_none haxis hslice hrank.1 dflt ha, Option.bind_eq_bind, Option.bind_none]

end

/-! ## The result -/

/-- The arrays, with axes of length one in front where they have too few, stand in a new array one after the other. -/
def Joined {V : Type} (axis : ℕ) (args : List NdArray) (m : Data V) (z : NdArray) (m' : Data V) : Prop :=
  (∃ a ∈ args, z.shape.dimensions.length = a.shape.dimensions.length) ∧
  (∀ a ∈ args, (z.widen axis).shape.lengths = (a.widen axis).shape.lengths.set axis (extents axis (args.map (·.widen axis)))) ∧
  Stands (z.widen axis) axis m m' 0 (args.map (·.widen axis)) ∧
  ∀ acc, acc ≠ z.accessor → m' acc = m acc

theorem set_front {ls : List ℕ} (hls : ls ≠ []) (axis n : ℕ) :
    (List.replicate (axis + 1 - ls.length) 1 ++ ls).set axis n =
      List.replicate (axis + 1 - ls.length) 1 ++ ls.set (min axis (ls.length - 1)) n := by
  have hpos := List.length_pos_iff.mpr hls
  rw [List.set_append, List.length_replicate, if_neg (by omega)]
  congr 2
  omega

theorem indices_front {k : ℕ} {ls idx : List ℕ} (hidx : idx ∈ indices (List.replicate k 1 ++ ls)) :
    idx.drop k ∈ indices ls ∧ idx = List.replicate k 0 ++ idx.drop k := by
  rw [mem_indices] at hidx
  induction k generalizing idx with
  | zero => exact ⟨mem_indices.mpr hidx, rfl⟩
  | succ k ih =>
    rw [List.replicate_succ, List.cons_append] at hidx
    obtain ⟨i, is, hi, his, rfl⟩ := List.forall₂_cons_right_iff.mp hidx
    obtain rfl := Nat.lt_one_iff.mp hi
    refine ⟨(ih his).1, ?_⟩
    rw [List.drop_succ_cons, List.replicate_succ, List.cons_append, ← (ih his).2]

theorem not_incompatible {axis rank : ℕ} {reslv a : NdArray}
    (h : a.shape.lengths = reslv.shape.lengths.set axis (a.shape.dim axis).length) : incompatible axis rank reslv a = false := by
  have hrank := congrArg List.length h
  rw [List.length_set, Shape.lengths, Shape.lengths, List.length_map, List.length_map] at hrank
  rw [incompatible, decide_eq_false (not_not.mpr hrank), Bool.false_or, List.any_eq_false]
  intro i _
  obtain rfl | hne := eq_or_ne i axis
  · rw [decide_eq_false (not_not.mpr rfl)]
    exact Bool.false_ne_true
  · have hlength : (reslv.shape.dim i).length = (a.shape.dim i).length := by
      rw [Shape.length_dim, Shape.length_dim, h, List.getD_eq_getElem?_getD, List.getD_eq_getElem?_getD, List.getElem?_set_ne hne.symm]
    rw [decide_eq_false (not_not.mpr hlength), Bool.and_false]
    exact Bool.false_ne_true

theorem joinable_iff {axis : ℕ} {ls : List ℕ} {ext : List NdArray} {b : NdArray} (hb : b ∈ ext)
    (hls : ls.set axis 0 = b.shape.lengths.set axis 0) :
    Joinable axis ext ↔ ∀ a ∈ ext, a.shape.lengths = ls.set axis (a.shape.dim axis).length := by
  constructor
  · intro h a ha
    rw [← List.set_set 0, hls, ← h a ha b hb, List.set_set, Shape.length_dim, set_getD]
  · intro h a ha c hc
    rw [h a ha, h c hc, List.set_set, List.set_set]

section
variable {V : Type} {args : List NdArray} {first : NdArray} {fresh axis : ℕ} (hfirst : first ∈ args)
  (hargs : ∀ a ∈ args, a.shape.dimensions ≠ []) (hfresh : ∀ a ∈ args, a.accessor.id ≠ fresh)

include hfirst hargs hfresh

theorem concatenateAll_spec (dflt : Accessor → Bool) (m : Data V) :
    (Joinable axis (args.map (·.widen axis)) →
      ∃ z m', concatenateAll fresh dflt first args axis m = some (z, m') ∧ Joined axis args m z m') ∧
    (¬Joinable axis (args.map (·.widen axis)) → concatenateAll fresh dflt first args axis m = none) := by
  let basic := (args.find? fun a => a.shape.elements ≠ 1).getD first
  have hbasic : basic ∈ args := by
    cases hfind : args.find? fun a => a.shape.elements ≠ 1 with
    | none =>
      show (args.find? _).getD first ∈ args
      rw [hfind]
      exact hfirst
    | some a =>
      show (args.find? _).getD first ∈ args
      rw [hfind]
      exact List.mem_of_find?_eq_some hfind
  let ext := args.map (·.widen axis)
  let size := extents axis ext
  have hrank : ∀ a ∈ ext, axis < a.shape.dimensions.length := by
    intro a ha
    obtain ⟨b, -, rfl⟩ := List.mem_map.mp ha
    exact axis_lt_widen b axis
  have hbasic' : basic.widen axis ∈ ext := List.mem_map_of_mem hbasic
  have hsize : 0 < size := by
    have hmem : ((basic.widen axis).shape.dim axis).length ∈ ext.map fun a => (a.shape.dim axis).length := List.mem_map_of_mem hbasic'
    exact ((basic.widen axis).dim_pos (axis_lt_widen _ _)).trans_le (List.le_sum_of_mem hmem)
  have hls : basic.shape.lengths ≠ [] := by
    rw [Shape.lengths, Ne, List.map_eq_nil_iff]
    exact hargs _ hbasic
  let dims := basic.shape.lengths.set (min axis (basic.shape.lengths.length - 1)) size
  have hdims : dims.length = basic.shape.dimensions.length := by
    rw [List.length_set, Shape.lengths, List.length_map]
  obtain ⟨res, hcreate, hacc, hres⟩ := @create_eq fresh (plainShape dims) (by
    rw [lengths_plainShape]
    exact set_pos hsize)
  have hreslen : res.shape.lengths = dims := by rw [hres, lengths_plainShape]
  have hresrank : res.shape.dimensions.length = basic.shape.dimensions.length := by
    rw [← hdims, ← hreslen, Shape.lengths, List.length_map]
  let reslv := res.widen axis
  have hfront : reslv.shape.lengths = List.replicate (axis + 1 - basic.shape.dimensions.length) 1 ++ dims := by
    show (res.shape.front _).lengths = _
    rw [Shape.lengths_front, hreslen, hresrank]
  have hlengths : reslv.shape.lengths = (basic.widen axis).shape.lengths.set axis size := by
    show _ = (basic.shape.front _).lengths.set axis size
    have hset := set_front hls axis size
    have hlen : basic.shape.lengths.length = basic.shape.dimensions.length := List.length_map _
    rw [hlen] at hset
    rw [hfront, Shape.lengths_front, hset]
    show _ ++ basic.shape.lengths.set (min axis (basic.shape.lengths.length - 1)) size = _
    rw [hlen]
  have haxis : axis < reslv.shape.dimensions.length := axis_lt_widen res axis
  have hdim : (reslv.shape.dim axis).length = size := by
    have hlt : axis < (basic.widen axis).shape.lengths.length := by
      rw [Shape.lengths, List.length_map]
      exact axis_lt_widen basic axis
    rw [Shape.length_dim, hlengths, List.getD_eq_getElem _ _ (by rwa [List.length_set]), List.getElem_set_self]
  -- the result is stored without gaps
  have hinj : ∀ idx ∈ indices reslv.shape.lengths, ∀ idx' ∈ indices reslv.shape.lengths,
      reslv.shape.address idx = reslv.shape.address idx' → idx = idx' := by
    intro idx hidx idx' hidx' heq
    rw [hfront] at hidx hidx'
    have haddress : ∀ idx, reslv.shape.address idx = flatIndex dims (idx.drop (axis + 1 - basic.shape.dimensions.length)) := by
      intro idx
      show (res.shape.front _).address idx = _
      rw [Shape.address_front, hresrank, hres, address_plainShape]
    rw [haddress, haddress] at heq
    rw [(indices_front hidx).2, (indices_front hidx').2, flatIndex_inj (indices_front hidx).1 (indices_front hidx').1 heq]
  have hne : ∀ a ∈ ext, a.accessor ≠ reslv.accessor := by
    intro a ha heq
    obtain ⟨b, hb, rfl⟩ := List.mem_map.mp ha
    apply hfresh b hb
    have hid := congrArg Accessor.id heq
    rw [show reslv.accessor = res.accessor from rfl, hacc] at hid
    exact hid
  have hjoin := @joinable_iff axis reslv.shape.lengths ext (basic.widen axis) hbasic' (by rw [hlengths, List.set_set])
  have hfit : 0 + extents axis ext ≤ (reslv.shape.dim axis).length := by rw [hdim, Nat.zero_add]
  have hunfold : concatenateAll fresh dflt first args axis m =
      if ext.any (incompatible axis dims.length reslv) then none else
      (ext.foldlM (concatenateStep dflt reslv axis) (0, m)).map fun q => (res, q.2) := by
    unfold concatenateAll
    dsimp only
    rw [mapM_extend, Option.bind_some]
    show ((NdArray.create fresh (plainShape dims)).bind fun res => _) = _
    rw [hcreate, Option.bind_some, extend_eq, Option.bind_some]
    rfl
  rw [hunfold]
  constructor
  · intro h
    have hall := hjoin.mp h
    have hany : ext.any (incompatible axis dims.length reslv) = false := by
      rw [List.any_eq_false]
      intro a ha
      rw [not_incompatible (hall a ha)]
      exact Bool.false_ne_true
    obtain ⟨m', hrun, hstands, -, hother⟩ := foldlM_some haxis hinj dflt hrank hne hfit hall m
    refine ⟨res, m', ?_, ⟨basic, hbasic, hresrank⟩, fun a ha => ?_, hstands, hother⟩
    · rw [hany, if_neg Bool.false_ne_true, hrun, Option.map_some]
    · show reslv.shape.lengths = _
      have hmem : a.widen axis ∈ ext := List.mem_map_of_mem ha
      rw [← List.set_set 0, h _ hmem _ hbasic', List.set_set, hlengths]
  · intro h
    rw [hjoin] at h
    split
    · rfl
    · rw [foldlM_none haxis hinj dflt hrank hne hfit h, Option.map_none]

end

/-- Two arrays and more: they are joined if they agree outside the axis, else it throws. -/
theorem concatenate_spec {V : Type} (fresh : ℕ) (dflt : Accessor → Bool) (x y : NdArray) (args : List NdArray) (axis : ℕ) (m : Data V)
    (hargs : ∀ a ∈ x :: y :: args, a.shape.dimensions ≠ []) (hfresh : ∀ a ∈ x :: y :: args, a.accessor.id ≠ fresh) :
    (Joinable axis ((x :: y :: args).map (·.widen axis)) →
      ∃ z m', concatenate fresh dflt (x :: y :: args) axis m = some (z, m') ∧ Joined axis (x :: y :: args) m z m') ∧
    (¬Joinable axis ((x :: y :: args).map (·.widen axis)) → concatenate fresh dflt (x :: y :: args) axis m = none) := by
  have hspec := @concatenateAll_spec V (x :: y :: args) x fresh axis List.mem_cons_self hargs hfresh dflt m
  have hall : concatenate fresh dflt (x :: y :: args) axis m = concatenateAll fresh dflt x (x :: y :: args) axis m := by
    have hneg : ¬(axis : ℤ) < 0 := by omega
    show (if (axis : ℤ) < 0 then none else concatenateAll fresh dflt x (x :: y :: args) (axis : ℤ).toNat m) = _
    rw [if_neg hneg, Int.toNat_natCast]
  rw [hall]
  exact hspec

/-- Every second of five numbers. -/
def oddsView : NdArray := ⟨⟨1, 5⟩, ⟨0, [⟨3, 2⟩]⟩, by decide, by decide⟩

/-- A row of four. -/
def rowOfFour : NdArray := ⟨⟨2, 4⟩, ⟨0, [⟨1, 4⟩, ⟨4, 1⟩]⟩, by decide, by decide⟩

theorem concatenate_spec_row : ∃ z m', concatenate 3 (fun _ => true) [oddsView, rowOfFour] 1 (fun acc i => acc.id * i) = some (z, m') ∧
    Joined 1 [oddsView, rowOfFour] (fun acc i => acc.id * i) z m' :=
  (concatenate_spec 3 (fun _ => true) oddsView rowOfFour [] 1 (fun acc i => acc.id * i) (by decide) (by decide)).1 (by
    unfold Joinable
    decide)

end Bohrium.NumCil
