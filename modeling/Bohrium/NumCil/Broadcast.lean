import Bohrium.Library.Layout
import Bohrium.NumCil.Aggregate
import Bohrium.NumCil.Reduction
import Mathlib.Data.Fin.VecNotation

/-! # Broadcasting

`Shape.ToBroadcastShapes`, `SetupApplyHelper` and the binary `Flush`. The lengths are aligned at the last
dimension, so that they are joined backwards. -/
namespace Bohrium.NumCil
open Strided Walk Pointers Layout Elementwise
set_option autoImplicit false

/-! ## Shapes -/

/-- `Dimensions[Dimensions.LongLength - i - 1].Length`. -/
def Shape.sizeFromEnd (sh : Shape) (i : ℕ) : ℕ := (sh.dim (sh.dimensions.length - i - 1)).length

/-- `resultDimensions`, `none` if the sizes do not match. -/
def resultDimensions (self other : Shape) : Option (List ℕ) :=
  let selfDims := self.dimensions.length
  let otherDims := other.dimensions.length
  let sharedDims := min selfDims otherDims
  let resultDims := max selfDims otherDims
  let largest := if otherDims < selfDims then self else other
  if (List.range sharedDims).any fun i => self.sizeFromEnd i ≠ other.sizeFromEnd i ∧ other.sizeFromEnd i ≠ 1 ∧
      self.sizeFromEnd i ≠ 1 then none
  else some ((List.range resultDims).map fun i =>
    if i < sharedDims then
      if self.sizeFromEnd i = other.sizeFromEnd i then self.sizeFromEnd i
      else max (self.sizeFromEnd i) (other.sizeFromEnd i)
    else (largest.dim (resultDims - i - 1)).length).reverse

/-- The stride in dimension `i` of the result. -/
def broadcastStride (self : Shape) (dims : List ℕ) (i : ℕ) : ℕ :=
  let diffSelf := dims.length - self.dimensions.length
  if diffSelf ≤ i then
    if (self.dim (i - diffSelf)).length = 1 then 0
    else dims.getD i 1 / (self.dim (i - diffSelf)).length * (self.dim (i - diffSelf)).stride
  else 0

def broadcastShape (self : Shape) (dims : List ℕ) : Shape :=
  ⟨self.offset, (List.range dims.length).map fun i => ⟨dims.getD i 1, broadcastStride self dims i⟩⟩

def toBroadcastShapes (self other : Shape) : Option (Shape × Shape) :=
  (resultDimensions self other).map fun dims => (broadcastShape self dims, broadcastShape other dims)

/-- `new Shape(lengths)`. -/
def plainDimensions : List ℕ → List ShapeDimension
  | [] => []
  | n :: ns => ⟨n, ns.prod⟩ :: plainDimensions ns

def plainShape (lengths : List ℕ) : Shape := ⟨0, plainDimensions lengths⟩

/-! ## Arrays -/

/-- `new NdArray<T>(data, shape)`, `none` if it throws. -/
def NdArray.make (accessor : Accessor) (shape : Shape) : Option NdArray :=
  if h : (∀ d ∈ shape.dimensions, 0 < d.length) ∧ shape.space ≤ accessor.size then some ⟨accessor, shape, h.1, h.2⟩ else none

def NdArray.reshape (x : NdArray) (newshape : Shape) : Option NdArray := NdArray.make x.accessor newshape

/-- `new NdArray<T>(shape)` on a new accessor. -/
def NdArray.create (fresh : ℕ) (shape : Shape) : Option NdArray := NdArray.make ⟨fresh, shape.space⟩ shape

/-- The checks of a given output. -/
def checkTarget (out : NdArray) (shape : Shape) : Option NdArray :=
  if out.shape.dimensions.length ≠ shape.dimensions.length then none
  else if (List.range out.shape.dimensions.length).any fun i => (out.shape.dim i).length ≠ (shape.dim i).length then none
  else some out

/-- `SetupApplyHelper`, `none` if it throws. -/
def setupApplyHelper (fresh : ℕ) (in1 in2 : NdArray) (out : Option NdArray) : Option (NdArray × NdArray × NdArray) :=
  (toBroadcastShapes in1.shape in2.shape).bind fun shapes =>
    (out.elim (NdArray.create fresh (plainShape shapes.1.lengths)) fun out => checkTarget out shapes.1).bind fun out =>
      (in1.reshape shapes.1).bind fun op1 => (in2.reshape shapes.2).bind fun op2 => some (op1, op2, out)

/-! ## The loops -/

section
variable {V : Type}

/-- `d3[ix] = value`. -/
def Accessor.write (a : Accessor) (m : Data V) (ix : ℤ) (v : V) : Option (Data V) :=
  if 0 ≤ ix ∧ ix < a.size then some (m.set a ix.toNat v) else none

theorem Accessor.write_of_lt {a : Accessor} {i : ℕ} (h : i < a.size) (m : Data V) (v : V) : a.write m i v = some (m.set a i v) := by
  rw [Accessor.write, if_pos (by omega), Int.toNat_natCast]

/-- `UFunc_Op_Inner_BinaryConv_LhsScalar_Flush` and `UFunc_Op_Inner_BinaryConv_RhsScalar_Flush`, where `f` has the scalar. -/
def scalarInnerFlush (f : V → V) (in1 out : NdArray) : Data V → Option (Data V) :=
  flushLoops ![in1.shape, out.shape] 1 1 fun ix m =>
    (in1.accessor.read m (ix 0)).bind fun x => out.accessor.write m (ix 1) (f x)

/-- `UFunc_Op_Inner_BinaryConv_Flush`, `none` if it throws. `dflt1` and `dflt2` say whether the inputs have
`DefaultAccessor`s. -/
def binaryInnerFlush (dflt1 dflt2 : Bool) (f : V → V → V) (in1 in2 out : NdArray) (m : Data V) : Option (Data V) :=
  if in1.accessor.size = 1 ∧ dflt1 then
    (in1.accessor.read m 0).bind fun scalar => scalarInnerFlush (f scalar) in2 out m
  else if in2.accessor.size = 1 ∧ dflt2 then
    (in2.accessor.read m 0).bind fun scalar => scalarInnerFlush (f · scalar) in1 out m
  else flushLoops ![in1.shape, in2.shape, out.shape] 0 2 (fun ix m => (in1.accessor.read m (ix 0)).bind fun x =>
    (in2.accessor.read m (ix 1)).bind fun y => out.accessor.write m (ix 2) (f x y)) m

end

/-! ## The lengths -/

/-- In some dimension, from the end, the lengths differ and neither is one. -/
def Clash (ns ms : List ℕ) : Prop :=
  ∃ i < min ns.length ms.length, ns.reverse.getD i 1 ≠ ms.reverse.getD i 1 ∧ ns.reverse.getD i 1 ≠ 1 ∧ ms.reverse.getD i 1 ≠ 1

instance (ns ms : List ℕ) : Decidable (Clash ns ms) := inferInstanceAs (Decidable (∃ i < min ns.length ms.length, _))

theorem Shape.sizeFromEnd_eq {sh : Shape} {i : ℕ} (hi : i < sh.dimensions.length) : sh.sizeFromEnd i = sh.lengths.reverse.getD i 1 := by
  have hlen : i < sh.lengths.length := by rwa [lengths, List.length_map]
  rw [List.getD_eq_getElem?_getD, List.getElem?_reverse hlen, ← List.getD_eq_getElem?_getD,
    ← sh.length_dim, sizeFromEnd, lengths, List.length_map]
  congr 2
  omega

theorem getD_reverse_pos {ns : List ℕ} (hns : ∀ n ∈ ns, 0 < n) (i : ℕ) : 0 < ns.reverse.getD i 1 := by
  obtain hi | hi := Nat.lt_or_ge i ns.reverse.length
  · rw [List.getD_eq_getElem _ _ hi]
    exact hns _ (List.mem_reverse.mp (List.getElem_mem hi))
  · rw [List.getD_eq_default _ _ hi]
    exact Nat.one_pos

theorem resultDimensions_eq {self other : Shape} (hself : ∀ n ∈ self.lengths, 0 < n) (hother : ∀ n ∈ other.lengths, 0 < n) :
    resultDimensions self other = (join self.lengths.reverse other.lengths.reverse).map List.reverse := by
  have hlself : self.lengths.reverse.length = self.dimensions.length := by rw [List.length_reverse, Shape.lengths, List.length_map]
  have hlother : other.lengths.reverse.length = other.dimensions.length := by
    rw [List.length_reverse, Shape.lengths, List.length_map]
  unfold resultDimensions
  dsimp only
  cases hjoin : join self.lengths.reverse other.lengths.reverse with
  | none =>
    obtain ⟨i, hi, hne, hself1, hother1⟩ := join_eq_none_iff.mp hjoin
    rw [hlself, hlother] at hi
    rw [if_pos, Option.map_none]
    rw [List.any_eq_true]
    refine ⟨i, List.mem_range.mpr hi, ?_⟩
    rw [Shape.sizeFromEnd_eq (by omega), Shape.sizeFromEnd_eq (by omega)]
    simpa using ⟨hne, hother1, hself1⟩
  | some ms =>
    have hno : ∀ i < min self.dimensions.length other.dimensions.length, self.lengths.reverse.getD i 1 = other.lengths.reverse.getD i 1 ∨
        self.lengths.reverse.getD i 1 = 1 ∨ other.lengths.reverse.getD i 1 = 1 := by
      intro i hi
      by_contra hclash
      have hnone : join self.lengths.reverse other.lengths.reverse = none :=
        join_eq_none_iff.mpr ⟨i, by rwa [hlself, hlother], by omega, by omega, by omega⟩
      rw [hjoin] at hnone
      cases hnone
    rw [if_neg, Option.map_some, join_eq_map hjoin, hlself, hlother]
    · congr 2
      apply List.map_congr_left
      intro i hi
      have hi := List.mem_range.mp hi
      split
      · next hshared =>
        have hself' := getD_reverse_pos hself i
        have hother' := getD_reverse_pos hother i
        have := hno i hshared
        rw [Shape.sizeFromEnd_eq (by omega), Shape.sizeFromEnd_eq (by omega)]
        split
        · split <;> omega
        · split <;> omega
      · next hshared =>
        split
        · next hlarger =>
          have hshort : other.lengths.reverse.getD i 1 = 1 := List.getD_eq_default _ _ (by omega)
          have hsize : (self.dim (max self.dimensions.length other.dimensions.length - i - 1)).length =
              self.lengths.reverse.getD i 1 := by
            rw [← Shape.sizeFromEnd_eq (by omega), Shape.sizeFromEnd]
            congr 2
            omega
          rw [hsize, hshort]
          split <;> omega
        · next hlarger =>
          have hshort : self.lengths.reverse.getD i 1 = 1 := List.getD_eq_default _ _ (by omega)
          have hsize : (other.dim (max self.dimensions.length other.dimensions.length - i - 1)).length =
              other.lengths.reverse.getD i 1 := by
            rw [← Shape.sizeFromEnd_eq (by omega), Shape.sizeFromEnd]
            congr 2
            omega
          rw [hsize, hshort, if_pos rfl]
    · rw [List.any_eq_true]
      rintro ⟨i, hi, hclash⟩
      have hi := List.mem_range.mp hi
      rw [Shape.sizeFromEnd_eq (by omega), Shape.sizeFromEnd_eq (by omega)] at hclash
      have := hno i hi
      simp only [decide_eq_true_eq] at hclash
      omega

/-! ## Broadcast shapes -/

theorem BroadcastsTo.getD {ns os : List ℕ} (h : BroadcastsTo ns os) (i : ℕ) : ns.getD i 1 = os.getD i 1 ∨ ns.getD i 1 = 1 := by
  induction ns generalizing os i with
  | nil => exact Or.inr rfl
  | cons n ns ih =>
    cases os with
    | nil => exact h.elim
    | cons o os =>
      cases i with
      | zero => exact h.1
      | succ i => exact ih h.2 i

theorem broadcastsTo_of_getD {ns os : List ℕ} (hlen : ns.length = os.length)
    (h : ∀ i < ns.length, ns.getD i 1 = os.getD i 1 ∨ ns.getD i 1 = 1) : BroadcastsTo ns os := by
  induction ns generalizing os with
  | nil => trivial
  | cons n ns ih =>
    obtain ⟨o, os, rfl⟩ := List.exists_cons_of_length_eq_add_one hlen.symm
    refine ⟨h 0 (by simp), ih (Nat.succ.inj hlen) fun i hi => ?_⟩
    exact h (i + 1) (by simpa using hi)

theorem spaceRequired_eq (ds : List ShapeDimension) : spaceRequired ds = displacement ds (ds.map (·.length - 1)) + 1 := by
  rw [spaceRequired, Nat.add_comm, Nat.add_left_inj]
  induction ds with
  | nil => rfl
  | cons d ds ih => rw [List.map_cons, List.sum_cons, ih, List.map_cons, displacement]

theorem displacement_of_zero {ds : List ShapeDimension} {idx : List ℕ} (h : ∀ d ∈ ds.take idx.length, d.stride = 0) :
    displacement ds idx = 0 := by
  induction idx generalizing ds with
  | nil => cases ds <;> rfl
  | cons i idx ih =>
    cases ds with
    | nil => rfl
    | cons d ds =>
      rw [List.length_cons, List.take_succ_cons, List.forall_mem_cons] at h
      rw [displacement, h.1, ih h.2, Nat.mul_zero]

theorem displacement_coordinate {ls : List ℕ} {ds : List ShapeDimension} (hlen : ls.length = ds.length) (idx : List ℕ) :
    displacement (List.zipWith (fun l d => ⟨l, if d.length = 1 then 0 else d.stride⟩) ls ds) idx =
      displacement ds (coordinate (ds.map (·.length)) idx) := by
  induction ds generalizing ls idx with
  | nil =>
    rw [List.length_nil, List.length_eq_zero_iff] at hlen
    subst hlen
    cases idx <;> rfl
  | cons d ds ih =>
    obtain ⟨l, ls, rfl⟩ := List.exists_cons_of_length_eq_add_one hlen
    cases idx with
    | nil => rfl
    | cons i idx =>
      rw [List.zipWith_cons_cons, displacement, ih (Nat.succ.inj hlen), List.map_cons]
      show _ = (if d.length = 1 then 0 else i) * d.stride + displacement ds (coordinate (ds.map (·.length)) idx)
      dsimp only
      split <;> simp

/-- The coordinates of an element of a broadcast view. -/
def Shape.spread (sh : Shape) (idx : List ℕ) : List ℕ := coordinate sh.lengths (idx.drop (idx.length - sh.dimensions.length))

section
variable {sh : Shape} {dims : List ℕ} (h : BroadcastsTo sh.lengths.reverse dims.reverse)

theorem lengths_broadcastShape (sh : Shape) (dims : List ℕ) : (broadcastShape sh dims).lengths = dims := by
  rw [Shape.lengths, broadcastShape, List.map_map]
  exact map_getD_range dims

include h

theorem rank_le_of_broadcasts : sh.dimensions.length ≤ dims.length := by
  have := h.length_le
  rwa [List.length_reverse, List.length_reverse, Shape.lengths, List.length_map] at this

theorem dim_of_broadcasts {k : ℕ} (hk : k < sh.dimensions.length) :
    (sh.dim k).length = dims.getD (dims.length - sh.dimensions.length + k) 1 ∨ (sh.dim k).length = 1 := by
  have hle := rank_le_of_broadcasts h
  have hlen : sh.lengths.length = sh.dimensions.length := List.length_map _
  have hat := BroadcastsTo.getD h (sh.dimensions.length - 1 - k)
  rw [List.getD_eq_getElem?_getD, List.getD_eq_getElem?_getD, List.getElem?_reverse (by omega), List.getElem?_reverse (by omega),
    ← List.getD_eq_getElem?_getD, ← List.getD_eq_getElem?_getD, hlen] at hat
  rw [sh.length_dim,
    show k = sh.dimensions.length - 1 - (sh.dimensions.length - 1 - k) by omega,
    show dims.length - sh.dimensions.length + (sh.dimensions.length - 1 - (sh.dimensions.length - 1 - k)) =
      dims.length - 1 - (sh.dimensions.length - 1 - k) by omega]
  exact hat

theorem broadcastShape_eq (hpos : ∀ n ∈ sh.lengths, 0 < n) : (broadcastShape sh dims).dimensions =
    ((List.range (dims.length - sh.dimensions.length)).map fun i => (⟨dims.getD i 1, 0⟩ : ShapeDimension)) ++
      List.zipWith (fun l d => ⟨l, if d.length = 1 then 0 else d.stride⟩) (dims.drop (dims.length - sh.dimensions.length))
        sh.dimensions := by
  have hle := rank_le_of_broadcasts h
  have hsplit : dims.length = (dims.length - sh.dimensions.length) + sh.dimensions.length := by omega
  rw [broadcastShape]
  dsimp only
  conv_lhs => rw [hsplit, List.range_add]
  rw [List.map_append, List.map_map]
  congr 1
  · apply List.map_congr_left
    intro i hi
    have hi := List.mem_range.mp hi
    rw [broadcastStride, if_neg (by omega)]
  · apply List.ext_getElem
    · simp only [List.length_map, List.length_range, List.length_zipWith, List.length_drop]
      omega
    · intro k hk hk'
      rw [List.length_map, List.length_range] at hk
      have hdim : sh.dim k = sh.dimensions[k] := List.getD_eq_getElem _ _ hk
      have hlength : 0 < (sh.dim k).length := by
        rw [hdim]
        exact hpos _ (List.mem_map_of_mem (List.getElem_mem hk))
      rw [List.getElem_map, List.getElem_range, List.getElem_zipWith, List.getElem_drop, Function.comp_apply, broadcastStride,
        if_pos (by omega), Nat.add_sub_cancel_left, ← hdim, List.getD_eq_getElem _ _ (by omega)]
      congr 1
      split
      · rfl
      · next hmany =>
        have hsame := (dim_of_broadcasts h hk).resolve_right hmany
        rw [List.getD_eq_getElem _ _ (by omega)] at hsame
        rw [← hsame, Nat.div_self hlength, Nat.one_mul]

/-- A broadcast view shows the elements at the spread coordinates. -/
theorem address_broadcastShape (hpos : ∀ n ∈ sh.lengths, 0 < n) {idx : List ℕ} (hidx : idx.length = dims.length) :
    (broadcastShape sh dims).address idx = sh.address (sh.spread idx) := by
  have hle := rank_le_of_broadcasts h
  rw [Shape.address, Shape.address, broadcastShape_eq h hpos, Shape.spread, hidx]
  congr 1
  conv_lhs => rw [← List.take_append_drop (dims.length - sh.dimensions.length) idx]
  have htake : (idx.take (dims.length - sh.dimensions.length)).length = dims.length - sh.dimensions.length := by
    rw [List.length_take]
    omega
  rw [displacement_append, htake, List.drop_left' (by simp), displacement_coordinate, displacement_of_zero, Nat.zero_add]
  · rfl
  · rw [htake, List.take_left' (by simp)]
    intro d hd
    obtain ⟨i, -, rfl⟩ := List.mem_map.mp hd
    rfl
  · rw [List.length_drop]
    omega
  · rw [htake, List.length_append, List.length_map, List.length_range]
    omega

theorem spread_mem {idx : List ℕ} (hidx : idx ∈ indices dims) : sh.spread idx ∈ indices sh.lengths := by
  have hlen := (mem_indices.mp hidx).length_eq
  have hle := rank_le_of_broadcasts h
  rw [Shape.spread, hlen]
  have hto : BroadcastsTo sh.lengths (dims.drop (dims.length - sh.dimensions.length)) := by
    apply broadcastsTo_of_getD
    · rw [Shape.lengths, List.length_map, List.length_drop]
      omega
    · intro k hk
      rw [Shape.lengths, List.length_map] at hk
      have hdim := dim_of_broadcasts h hk
      rw [sh.length_dim] at hdim
      rw [List.getD_eq_getElem?_getD (l := dims.drop _), List.getElem?_drop, ← List.getD_eq_getElem?_getD]
      exact hdim
  apply coordinate_mem hto
  rw [mem_indices] at hidx ⊢
  exact List.forall₂_drop _ hidx

/-- A view that is inside its accessor still is when it is broadcast. -/
theorem space_broadcastShape {x : NdArray} (hsh : x.shape = sh) (hpos : ∀ n ∈ dims, 0 < n) :
    (broadcastShape sh dims).space ≤ x.accessor.size := by
  subst hsh
  have htop : (broadcastShape x.shape dims).dimensions.map (·.length - 1) ∈ indices dims := by
    have hlengths := congrArg (List.map (· - 1)) (lengths_broadcastShape x.shape dims)
    rw [Shape.lengths, List.map_map] at hlengths
    rw [mem_indices]
    refine hlengths ▸ ?_
    rw [List.forall₂_map_left_iff, List.forall₂_same]
    intro n hn
    have := hpos n hn
    omega
  have haddress := x.address_lt (spread_mem h htop)
  rw [← address_broadcastShape h x.length_pos (mem_indices.mp htop).length_eq, Shape.address] at haddress
  rw [Shape.space, spaceRequired_eq]
  omega

theorem make_broadcastShape {x : NdArray} (hsh : x.shape = sh) (hpos : ∀ n ∈ dims, 0 < n) :
    ∃ y, x.reshape (broadcastShape sh dims) = some y ∧ y.accessor = x.accessor ∧ y.shape = broadcastShape sh dims := by
  rw [NdArray.reshape, NdArray.make, dif_pos]
  · exact ⟨_, rfl, rfl, rfl⟩
  · refine ⟨?_, space_broadcastShape h hsh hpos⟩
    intro d hd
    apply hpos
    rw [← lengths_broadcastShape sh dims]
    exact List.mem_map_of_mem hd

end

/-! ## The setup -/

/-- The lengths of the result: aligned at the last dimension, the one that is not one. -/
def combinedLengths (ns ms : List ℕ) : List ℕ :=
  ((List.range (max ns.length ms.length)).map fun i =>
    if ns.reverse.getD i 1 = 1 then ms.reverse.getD i 1 else ns.reverse.getD i 1).reverse

theorem resultDimensions_cases (in1 in2 : NdArray) :
    (Clash in1.shape.lengths in2.shape.lengths ∧ resultDimensions in1.shape in2.shape = none) ∨
    (¬Clash in1.shape.lengths in2.shape.lengths ∧
      resultDimensions in1.shape in2.shape = some (combinedLengths in1.shape.lengths in2.shape.lengths) ∧
      BroadcastsTo in1.shape.lengths.reverse (combinedLengths in1.shape.lengths in2.shape.lengths).reverse ∧
      BroadcastsTo in2.shape.lengths.reverse (combinedLengths in1.shape.lengths in2.shape.lengths).reverse ∧
      ∀ n ∈ combinedLengths in1.shape.lengths in2.shape.lengths, 0 < n) := by
  have hclash : Clash in1.shape.lengths in2.shape.lengths ↔
      join in1.shape.lengths.reverse in2.shape.lengths.reverse = none := by
    rw [join_eq_none_iff, List.length_reverse, List.length_reverse, Clash]
  rw [resultDimensions_eq in1.length_pos in2.length_pos, hclash]
  cases hjoin : join in1.shape.lengths.reverse in2.shape.lengths.reverse with
  | none => exact Or.inl ⟨rfl, rfl⟩
  | some ms =>
    have hms := join_eq_map hjoin
    rw [List.length_reverse, List.length_reverse] at hms
    obtain ⟨h1, h2⟩ := join_eq_some hjoin
    have hcombined : combinedLengths in1.shape.lengths in2.shape.lengths = ms.reverse := by rw [combinedLengths, ← hms]
    rw [hcombined, List.reverse_reverse]
    refine Or.inr ⟨by simp, rfl, h1, h2, ?_⟩
    intro n hn
    rw [List.mem_reverse, hms] at hn
    obtain ⟨i, -, rfl⟩ := List.mem_map.mp hn
    have hpos1 := getD_reverse_pos in1.length_pos i
    have hpos2 := getD_reverse_pos in2.length_pos i
    split <;> assumption

theorem lengths_plainShape (ns : List ℕ) : (plainShape ns).lengths = ns := by
  show (plainDimensions ns).map (·.length) = ns
  induction ns with
  | nil => rfl
  | cons n ns ih => rw [plainDimensions, List.map_cons, ih]

/-- A new array. -/
theorem create_plainShape (fresh : ℕ) {ns : List ℕ} (hpos : ∀ n ∈ ns, 0 < n) :
    ∃ x, NdArray.create fresh (plainShape ns) = some x ∧ x.shape = plainShape ns ∧
      x.accessor = ⟨fresh, (plainShape ns).space⟩ := by
  rw [NdArray.create, NdArray.make, dif_pos]
  · exact ⟨_, rfl, rfl, rfl⟩
  · refine ⟨fun d hd => ?_, le_rfl⟩
    apply hpos
    rw [← lengths_plainShape ns]
    exact List.mem_map_of_mem hd

theorem checkTarget_eq (out : NdArray) (sh : Shape) : checkTarget out sh = if out.shape.lengths = sh.lengths then some out else none := by
  have hlen : ∀ sh : Shape, sh.lengths.length = sh.dimensions.length := fun sh => List.length_map _
  rw [checkTarget]
  split
  · next hrank =>
    rw [if_neg]
    intro heq
    apply hrank
    rw [← hlen, heq, hlen]
  · next hrank =>
    have hsame : ((List.range out.shape.dimensions.length).any fun i => (out.shape.dim i).length ≠ (sh.dim i).length) = true ↔
        out.shape.lengths ≠ sh.lengths := by
      rw [List.any_eq_true, ← not_iff_not, not_exists, not_not]
      constructor
      · intro h
        rw [← map_getD_range out.shape.lengths, ← map_getD_range sh.lengths, hlen, hlen, ← not_ne_iff.mp hrank]
        apply List.map_congr_left
        intro i hi
        rw [← Shape.length_dim, ← Shape.length_dim]
        exact not_ne_iff.mp fun hne => h i ⟨hi, by simpa using hne⟩
      · rintro heq i ⟨-, hne⟩
        rw [Shape.length_dim, Shape.length_dim, heq] at hne
        simp at hne
    split
    · next h => rw [if_neg (hsame.mp h)]
    · next h => rw [if_pos (not_not.mp fun hne => h (hsame.mpr hne))]

/-- When `SetupApplyHelper` throws, and what it returns otherwise. -/
theorem setupApplyHelper_cases (fresh : ℕ) (in1 in2 : NdArray) (out : Option NdArray) :
    ((Clash in1.shape.lengths in2.shape.lengths ∨
        ∃ o ∈ out, o.shape.lengths ≠ combinedLengths in1.shape.lengths in2.shape.lengths) ∧
      setupApplyHelper fresh in1 in2 out = none) ∨
    (¬(Clash in1.shape.lengths in2.shape.lengths ∨
        ∃ o ∈ out, o.shape.lengths ≠ combinedLengths in1.shape.lengths in2.shape.lengths) ∧
      ∃ op1 op2 o, setupApplyHelper fresh in1 in2 out = some (op1, op2, o) ∧
        op1.accessor = in1.accessor ∧ op2.accessor = in2.accessor ∧
        op1.shape = broadcastShape in1.shape o.shape.lengths ∧ op2.shape = broadcastShape in2.shape o.shape.lengths ∧
        BroadcastsTo in1.shape.lengths.reverse o.shape.lengths.reverse ∧
        BroadcastsTo in2.shape.lengths.reverse o.shape.lengths.reverse ∧
        o.shape.lengths = combinedLengths in1.shape.lengths in2.shape.lengths ∧ ∀ o' ∈ out, o = o') := by
  rw [setupApplyHelper, toBroadcastShapes]
  obtain ⟨hclash, hdims⟩ | ⟨hclash, hdims, h1, h2, hpos⟩ := resultDimensions_cases in1 in2
  · rw [hdims]
    exact Or.inl ⟨Or.inl hclash, rfl⟩
  · rw [hdims, Option.map_some, Option.bind_some]
    obtain ⟨op1, hop1, hacc1, hsh1⟩ := make_broadcastShape h1 rfl hpos
    obtain ⟨op2, hop2, hacc2, hsh2⟩ := make_broadcastShape h2 rfl hpos
    simp only [lengths_broadcastShape, hop1, hop2, checkTarget_eq, Option.bind_some]
    cases out with
    | none =>
      obtain ⟨o, ho, hsh, -⟩ := create_plainShape fresh hpos
      have hlengths : o.shape.lengths = combinedLengths in1.shape.lengths in2.shape.lengths := by rw [hsh, lengths_plainShape]
      refine Or.inr ⟨by simp [hclash], op1, op2, o, ?_, hacc1, hacc2, ?_⟩
      · rw [Option.elim_none, ho]
        rfl
      · rw [hlengths]
        exact ⟨hsh1, hsh2, h1, h2, rfl, by simp⟩
    | some o =>
      by_cases hlengths : o.shape.lengths = combinedLengths in1.shape.lengths in2.shape.lengths
      · refine Or.inr ⟨by simp [hclash, hlengths], op1, op2, o, ?_, hacc1, hacc2, ?_⟩
        · rw [Option.elim_some, if_pos hlengths]
          rfl
        · rw [hlengths]
          exact ⟨hsh1, hsh2, h1, h2, rfl, by simp⟩
      · refine Or.inl ⟨Or.inr ⟨o, rfl, hlengths⟩, ?_⟩
        rw [Option.elim_some, if_neg hlengths]
        rfl

/-! ## The flush -/

section
variable {V : Type}

/-- Loops whose body assigns one element of the output. -/
theorem flushLoops_assign {n : ℕ} {shapes : Fin (n + 1) → Shape} {lim cnt : Fin (n + 1)} {ls : List ℕ}
    (hls : ∀ k, (shapes k).lengths = ls) (hrank : ls ≠ []) (out : NdArray) (value : (Accessor × ℕ → V) → List ℕ → V)
    {body : (Fin (n + 1) → ℤ) → Data V → Option (Data V)}
    (hbody : ∀ idx ∈ indices ls, ∀ m, body (pointers shapes idx) m =
      some (m.set out.accessor (out.shape.address idx) (value (cells m) idx))) (m : Data V) :
    flushLoops shapes lim cnt body m =
      some (loop out.accessor ((indices ls).map fun idx => ⟨out.shape.address idx, fun m => value (cells m) idx⟩) m) := by
  rw [flushLoops_eq hls hrank]
  generalize indices ls = order at hbody
  induction order generalizing m with
  | nil => rfl
  | cons idx order ih =>
    rw [List.forall_mem_cons] at hbody
    rw [List.map_cons, visit, List.foldlM_cons, hbody.1]
    exact ih _ hbody.2

/-- The flush is one assignment for every element of the output. The operand that is read once only has one
element. -/
theorem binaryInnerFlush_cases (dflt1 dflt2 : Bool) (f : V → V → V) {in1 in2 out : NdArray}
    (h1 : in1.shape.lengths = out.shape.lengths) (h2 : in2.shape.lengths = out.shape.lengths) (hrank : out.shape.lengths ≠ [])
    (m : Data V) : ∃ value : (Accessor × ℕ → V) → List ℕ → V,
      binaryInnerFlush dflt1 dflt2 f in1 in2 out m = some (loop out.accessor ((indices out.shape.lengths).map fun idx =>
        ⟨out.shape.address idx, fun m => value (cells m) idx⟩) m) ∧
      (∀ idx ∈ indices out.shape.lengths, value (cells m) idx =
        f (m in1.accessor (in1.shape.address idx)) (m in2.accessor (in2.shape.address idx))) ∧
      ∀ idx w w', w (in1.accessor, in1.shape.address idx) = w' (in1.accessor, in1.shape.address idx) →
        w (in2.accessor, in2.shape.address idx) = w' (in2.accessor, in2.shape.address idx) → value w idx = value w' idx := by
  have hread1 : ∀ idx ∈ indices out.shape.lengths, ∀ m : Data V,
      in1.accessor.read m (in1.shape.address idx) = some (m in1.accessor (in1.shape.address idx)) :=
    fun idx hidx m => Accessor.read_of_lt (in1.address_lt (h1 ▸ hidx)) m
  have hread2 : ∀ idx ∈ indices out.shape.lengths, ∀ m : Data V,
      in2.accessor.read m (in2.shape.address idx) = some (m in2.accessor (in2.shape.address idx)) :=
    fun idx hidx m => Accessor.read_of_lt (in2.address_lt (h2 ▸ hidx)) m
  have hwrite : ∀ idx ∈ indices out.shape.lengths, ∀ (m : Data V) (v : V),
      out.accessor.write m (out.shape.address idx) v = some (m.set out.accessor (out.shape.address idx) v) :=
    fun idx hidx m v => Accessor.write_of_lt (out.address_lt hidx) m v
  rw [binaryInnerFlush]
  split
  · next hscalar =>
    -- the only element of the first operand
    have hzero : ∀ idx ∈ indices out.shape.lengths, in1.shape.address idx = 0 := by
      intro idx hidx
      have := in1.address_lt (h1 ▸ hidx)
      omega
    let value : (Accessor × ℕ → V) → List ℕ → V := fun w idx => f (m in1.accessor 0) (w (in2.accessor, in2.shape.address idx))
    refine ⟨value, ?_, ?_, ?_⟩
    · have hfirst : in1.accessor.read m 0 = some (m in1.accessor 0) := Accessor.read_of_lt (i := 0) (by omega) m
      rw [hfirst, Option.bind_some, scalarInnerFlush]
      have hls : ∀ k, ((![in2.shape, out.shape] : Fin 2 → Shape) k).lengths = out.shape.lengths :=
        Fin.forall_fin_two.mpr ⟨h2, rfl⟩
      apply flushLoops_assign hls hrank out value
      intro idx hidx m'
      show (in2.accessor.read m' (in2.shape.address idx)).bind _ = _
      rw [hread2 idx hidx]
      exact hwrite idx hidx m' _
    · intro idx hidx
      rw [hzero idx hidx]
      rfl
    · intro idx w w' _ hw
      exact congrArg (f (m in1.accessor 0)) hw
  split
  · next hscalar =>
    have hzero : ∀ idx ∈ indices out.shape.lengths, in2.shape.address idx = 0 := by
      intro idx hidx
      have := in2.address_lt (h2 ▸ hidx)
      omega
    let value : (Accessor × ℕ → V) → List ℕ → V := fun w idx => f (w (in1.accessor, in1.shape.address idx)) (m in2.accessor 0)
    refine ⟨value, ?_, ?_, ?_⟩
    · have hfirst : in2.accessor.read m 0 = some (m in2.accessor 0) := Accessor.read_of_lt (i := 0) (by omega) m
      rw [hfirst, Option.bind_some, scalarInnerFlush]
      have hls : ∀ k, ((![in1.shape, out.shape] : Fin 2 → Shape) k).lengths = out.shape.lengths :=
        Fin.forall_fin_two.mpr ⟨h1, rfl⟩
      apply flushLoops_assign hls hrank out value
      intro idx hidx m'
      show (in1.accessor.read m' (in1.shape.address idx)).bind _ = _
      rw [hread1 idx hidx]
      exact hwrite idx hidx m' _
    · intro idx hidx
      rw [hzero idx hidx]
      rfl
    · intro idx w w' hw _
      exact congrArg (f · (m in2.accessor 0)) hw
  · have hls : ∀ k, ((![in1.shape, in2.shape, out.shape] : Fin 3 → Shape) k).lengths = out.shape.lengths :=
      Fin.forall_fin_succ.mpr ⟨h1, Fin.forall_fin_two.mpr ⟨h2, rfl⟩⟩
    let value : (Accessor × ℕ → V) → List ℕ → V := fun w idx => f (w (in1.accessor, in1.shape.address idx)) (w (in2.accessor, in2.shape.address idx))
    refine ⟨value, ?_,
      fun _ _ => rfl, ?_⟩
    · apply flushLoops_assign hls hrank out value
      intro idx hidx m'
      show (in1.accessor.read m' (in1.shape.address idx)).bind (fun x => (in2.accessor.read m' (in2.shape.address idx)).bind _) = _
      rw [hread1 idx hidx, Option.bind_some, hread2 idx hidx]
      exact hwrite idx hidx m' _
    · intro idx w w' hw1 hw2
      exact congrArg₂ f hw1 hw2

end

/-! ## Elementwise operations -/

/-- Two views have no element in common. -/
def NdArray.Apart (x y : NdArray) : Prop := x.accessor = y.accessor → ∀ i ∈ x.shape.addresses, i ∉ y.shape.addresses

instance (x y : NdArray) : Decidable (x.Apart y) := inferInstanceAs (Decidable (_ → _))

/-- Every element of `out` becomes `f` of the elements of `in1` and `in2` at its coordinates, and nothing else changes. -/
def BinaryRight (in1 in2 op1 op2 out : NdArray) : Prop :=
  ∀ (V : Type) (dflt1 dflt2 : Bool) (f : V → V → V) (m : Data V), ∃ m', binaryInnerFlush dflt1 dflt2 f op1 op2 out m = some m' ∧
    (∀ idx ∈ indices out.shape.lengths, m' out.accessor (out.shape.address idx) =
      f (m in1.accessor (in1.shape.address (in1.shape.spread idx))) (m in2.accessor (in2.shape.address (in2.shape.spread idx)))) ∧
    ∀ a i, (a = out.accessor → i ∉ out.shape.addresses) → m' a i = m a i

theorem setupApplyHelper_broadcasts (fresh : ℕ) (in1 in2 : NdArray) (out : Option NdArray)
    (hrank : in1.shape.dimensions ≠ []) :
    (setupApplyHelper fresh in1 in2 out = none ↔ Clash in1.shape.lengths in2.shape.lengths ∨
      ∃ o ∈ out, o.shape.lengths ≠ combinedLengths in1.shape.lengths in2.shape.lengths) ∧
    ∀ op1 op2 o, setupApplyHelper fresh in1 in2 out = some (op1, op2, o) →
      o.shape.lengths = combinedLengths in1.shape.lengths in2.shape.lengths ∧ (∀ o' ∈ out, o = o') ∧
      (o.shape.addresses.Nodup → in1.Apart o → in2.Apart o → BinaryRight in1 in2 op1 op2 o) := by
  obtain ⟨hbad, hnone⟩ | ⟨hgood, op1, op2, o, hsome, hacc1, hacc2, hsh1, hsh2, h1, h2, hlengths, hout⟩ :=
    setupApplyHelper_cases fresh in1 in2 out
  · exact ⟨iff_of_true hnone hbad, by simp [hnone]⟩
  refine ⟨iff_of_false (by simp [hsome]) hgood, ?_⟩
  intro op1' op2' o' hsome'
  rw [hsome] at hsome'
  cases hsome'
  refine ⟨hlengths, hout, fun hnodup hapart1 hapart2 V dflt1 dflt2 f m => ?_⟩
  have haddress1 : ∀ idx ∈ indices o.shape.lengths, op1.shape.address idx = in1.shape.address (in1.shape.spread idx) := by
    intro idx hidx
    rw [hsh1, address_broadcastShape h1 in1.length_pos (mem_indices.mp hidx).length_eq]
  have haddress2 : ∀ idx ∈ indices o.shape.lengths, op2.shape.address idx = in2.shape.address (in2.shape.spread idx) := by
    intro idx hidx
    rw [hsh2, address_broadcastShape h2 in2.length_pos (mem_indices.mp hidx).length_eq]
  have hrank' : o.shape.lengths ≠ [] := by
    intro hnil
    have := rank_le_of_broadcasts h1
    rw [hnil, List.length_nil, Nat.le_zero, List.length_eq_zero_iff] at this
    exact hrank this
  have hlengths1 : op1.shape.lengths = o.shape.lengths := by rw [hsh1, lengths_broadcastShape]
  have hlengths2 : op2.shape.lengths = o.shape.lengths := by rw [hsh2, lengths_broadcastShape]
  obtain ⟨value, hflush, hvalue, hreads⟩ := binaryInnerFlush_cases dflt1 dflt2 f hlengths1 hlengths2 hrank' m
  have hinj : ∀ idx ∈ indices o.shape.lengths, ∀ idx' ∈ indices o.shape.lengths,
      o.shape.address idx = o.shape.address idx' → idx = idx' := by
    rw [o.shape.addresses_eq] at hnodup
    exact fun idx hidx idx' hidx' heq => List.inj_on_of_nodup_map hnodup hidx hidx' heq
  have hapart : Elementwise.Apart (fun idx => (o.accessor, o.shape.address idx)) value (indices o.shape.lengths) := by
    intro i hi j hj hne
    refine ⟨fun heq => hne (hinj i hi j hj (Prod.mk.inj heq).2), fun w v => hreads j _ _ ?_ ?_⟩
    · apply Function.update_of_ne
      rw [hacc1, haddress1 j hj]
      intro heq
      obtain ⟨hacc, haddr⟩ := Prod.mk.inj heq
      refine hapart1 hacc _ (Shape.address_mem (spread_mem h1 hj)) ?_
      rw [haddr]
      exact Shape.address_mem hi
    · apply Function.update_of_ne
      rw [hacc2, haddress2 j hj]
      intro heq
      obtain ⟨hacc, haddr⟩ := Prod.mk.inj heq
      refine hapart2 hacc _ (Shape.address_mem (spread_mem h2 hj)) ?_
      rw [haddr]
      exact Shape.address_mem hi
  have hcells := cells_loop o.accessor (indices o.shape.lengths) o.shape.address value m
  refine ⟨_, hflush, fun idx hidx => ?_, fun a i hi => ?_⟩
  · have hmem := run_of_mem hapart (nodup_indices _) (cells m) hidx
    rw [← hcells, hvalue idx hidx, hacc1, hacc2, haddress1 idx hidx, haddress2 idx hidx] at hmem
    exact hmem
  · have hne : run (fun idx => (o.accessor, o.shape.address idx)) value (indices o.shape.lengths) (cells m) (a, i) = cells m (a, i) := by
      apply run_of_ne
      intro idx hidx heq
      obtain ⟨rfl, rfl⟩ := Prod.mk.inj heq
      exact hi rfl (Shape.address_mem hidx)
    rw [← hcells] at hne
    exact hne

/-- Three elements with a stride, behind an offset. -/
def strideView : NdArray := ⟨⟨0, 8⟩, ⟨2, [⟨3, 2⟩]⟩, by decide, by decide⟩

/-- A column of two elements. -/
def stackView : NdArray := ⟨⟨1, 3⟩, ⟨0, [⟨2, 2⟩, ⟨1, 1⟩]⟩, by decide, by decide⟩

/-- A matrix that is stored by columns. -/
def tiltedTarget : NdArray := ⟨⟨2, 7⟩, ⟨1, [⟨2, 1⟩, ⟨3, 2⟩]⟩, by decide, by decide⟩

theorem setupApplyHelper_row_column : ∃ op1 op2, setupApplyHelper 3 strideView stackView (some tiltedTarget) = some (op1, op2, tiltedTarget) ∧
    BinaryRight strideView stackView op1 op2 tiltedTarget := by
  obtain ⟨hnone, hsome⟩ := setupApplyHelper_broadcasts 3 strideView stackView (some tiltedTarget) (by decide)
  cases hsetup : setupApplyHelper 3 strideView stackView (some tiltedTarget) with
  | none =>
    have hbad := hnone.mp hsetup
    simp only [Option.mem_def, Option.some.injEq, exists_eq_left'] at hbad
    exact absurd hbad (by decide)
  | some p =>
    obtain ⟨-, hout, hright⟩ := hsome p.1 p.2.1 p.2.2 hsetup
    have htarget : p.2.2 = tiltedTarget := hout tiltedTarget rfl
    rw [htarget] at hright
    exact ⟨p.1, p.2.1, by rw [← htarget], hright (by decide) (by decide) (by decide)⟩

end Bohrium.NumCil
