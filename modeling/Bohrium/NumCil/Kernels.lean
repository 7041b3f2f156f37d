import Bohrium.Library.Reorder
import Mathlib.Algebra.BigOperators.Group.List.Basic
import Mathlib.Algebra.Order.BigOperators.Group.List
import Mathlib.Algebra.Order.Group.Nat
import Mathlib.Algebra.GroupWithZero.Nat
import Mathlib.Data.List.GetD
import Mathlib.Data.List.InsertIdx

/-! # Arrays and inner loops of NumCIL

`Shape.cs`, `NdArray.cs` and the loops of `UFunc/*.tt` and `UFunc/Matmul.cs`. Every element type is a
subset of one type `V`, so that a conversion operation is an elementwise one. The contents of all
accessors are one map. A loop reads and writes the arrays in place, one assignment after the other,
so that the operands may overlap. -/
namespace Bohrium.NumCil
open Reorder
set_option autoImplicit false

/-! ## Shapes -/

/-- `Shape.ShapeDimension`. -/
structure ShapeDimension where
  length : ℕ
  stride : ℕ
  deriving DecidableEq, Repr

structure Shape where
  offset : ℕ
  dimensions : List ShapeDimension
  deriving DecidableEq, Repr

/-- The indices of a view in row-major order, as all the loops visit them. -/
def addressesFrom : ℕ → List ShapeDimension → List ℕ
  | off, [] => [off]
  | off, d :: ds => (List.range d.length).flatMap fun i => addressesFrom (off + i * d.stride) ds

/-- `CalculateSpaceRequired`. -/
def spaceRequired (ds : List ShapeDimension) : ℕ := 1 + (ds.map fun d => (d.length - 1) * d.stride).sum

namespace Shape

def addresses (sh : Shape) : List ℕ := addressesFrom sh.offset sh.dimensions

def lengths (sh : Shape) : List ℕ := sh.dimensions.map (·.length)

def elements (sh : Shape) : ℕ := sh.lengths.prod

/-- The property `Length`. -/
def space (sh : Shape) : ℕ := spaceRequired sh.dimensions + sh.offset

def dim (sh : Shape) (axis : ℕ) : ShapeDimension := sh.dimensions.getD axis ⟨1, 0⟩

/-- The indexer, `none` for an index that throws. -/
def at? (sh : Shape) (index : List ℕ) : Option ℕ :=
  if index.length ≤ sh.dimensions.length ∧ ∀ p ∈ index.zip sh.dimensions, p.1 < p.2.length then
    some (((index.zip sh.dimensions).map fun p => p.1 * p.2.stride).sum + sh.offset)
  else none

/-- `Subview(Range.El(j), axis)`. -/
def slice (sh : Shape) (axis j : ℕ) : Shape :=
  ⟨sh.offset + j * (sh.dim axis).stride, sh.dimensions.modify axis fun d => ⟨1, d.stride⟩⟩

/-- `Subview(Range.NewAxis, axis)`. -/
def newAxis (sh : Shape) (axis : ℕ) : Shape := ⟨sh.offset, sh.dimensions.insertIdx axis ⟨1, 0⟩⟩

def removeAxis (sh : Shape) (axis : ℕ) : Shape := ⟨sh.offset, sh.dimensions.eraseIdx axis⟩

end Shape

/-- A data accessor and its `Length`. -/
structure Accessor where
  id : ℕ
  size : ℕ
  deriving DecidableEq, Repr

/-- `NdArray`: the constructors of `Shape` and `NdArray` refuse anything else. -/
structure NdArray where
  accessor : Accessor
  shape : Shape
  positive : ∀ d ∈ shape.dimensions, 0 < d.length
  fits : shape.space ≤ accessor.size

/-- The index behind `Value[index]`. -/
def NdArray.valueIndex (x : NdArray) (index : List ℕ) : Option ℕ :=
  if index = [0] then some x.shape.offset else x.shape.at? index

theorem length_addressesFrom (off : ℕ) (ds : List ShapeDimension) :
    (addressesFrom off ds).length = (ds.map (·.length)).prod := by
  induction ds generalizing off with
  | nil => rfl
  | cons d ds ih => simp [addressesFrom, List.length_flatMap, ih]

theorem lt_of_mem_addressesFrom {off a : ℕ} {ds : List ShapeDimension} (h : a ∈ addressesFrom off ds) :
    a < spaceRequired ds + off := by
  induction ds generalizing off with
  | nil =>
    simp only [addressesFrom, List.mem_singleton] at h
    simp [spaceRequired, h]
  | cons d ds ih =>
    obtain ⟨i, hi, h⟩ := List.mem_flatMap.mp h
    have hrest := ih h
    have hi' : i ≤ d.length - 1 := by
      have := List.mem_range.mp hi
      omega
    have hstep : i * d.stride ≤ (d.length - 1) * d.stride := Nat.mul_le_mul_right _ hi'
    simp only [spaceRequired, List.map_cons, List.sum_cons] at hrest ⊢
    omega

theorem Shape.length_addresses (sh : Shape) : sh.addresses.length = sh.elements := length_addressesFrom _ _

theorem Shape.lt_of_mem_addresses {sh : Shape} {a : ℕ} (h : a ∈ sh.addresses) : a < sh.space :=
  lt_of_mem_addressesFrom h

theorem spaceRequired_modify (ds : List ShapeDimension) (axis j : ℕ) (h : j < (ds.getD axis ⟨1, 0⟩).length) :
    spaceRequired (ds.modify axis fun d => ⟨1, d.stride⟩) + j * (ds.getD axis ⟨1, 0⟩).stride ≤
      spaceRequired ds := by
  induction ds generalizing axis with
  | nil => simp [spaceRequired]
  | cons d ds ih =>
    cases axis with
    | zero =>
      simp only [List.getD_cons_zero] at h
      have hstep : j * d.stride ≤ (d.length - 1) * d.stride := Nat.mul_le_mul_right _ (by omega)
      simp only [spaceRequired, List.modify_zero_cons, List.map_cons, List.sum_cons, List.getD_cons_zero]
      omega
    | succ axis =>
      have hrest := ih axis (by simpa using h)
      simp only [spaceRequired, List.modify_succ_cons, List.map_cons, List.sum_cons,
        List.getD_cons_succ] at hrest ⊢
      omega

theorem Shape.space_slice (sh : Shape) (axis j : ℕ) (h : j < (sh.dim axis).length) :
    (sh.slice axis j).space ≤ sh.space := by
  have := spaceRequired_modify sh.dimensions axis j h
  simp only [Shape.space, Shape.slice, Shape.dim]
  omega

theorem Shape.space_removeAxis (sh : Shape) (axis : ℕ) : (sh.removeAxis axis).space ≤ sh.space := by
  have hsub : ((sh.dimensions.eraseIdx axis).map fun d => (d.length - 1) * d.stride).sum ≤
      (sh.dimensions.map fun d => (d.length - 1) * d.stride).sum :=
    ((List.eraseIdx_sublist sh.dimensions axis).map _).sum_le_sum fun _ _ => Nat.zero_le _
  simp only [Shape.space, Shape.removeAxis, spaceRequired]
  omega

theorem Shape.space_newAxis (sh : Shape) {axis : ℕ} (h : axis ≤ sh.dimensions.length) :
    (sh.newAxis axis).space = sh.space := by
  have hperm := (List.perm_insertIdx (⟨1, 0⟩ : ShapeDimension) sh.dimensions h).map
    fun d => (d.length - 1) * d.stride
  simp only [Shape.space, Shape.newAxis, spaceRequired, hperm.sum_eq]
  simp

theorem NdArray.dim_pos (x : NdArray) {axis : ℕ} (h : axis < x.shape.dimensions.length) :
    0 < (x.shape.dim axis).length := by
  rw [Shape.dim, List.getD_eq_getElem _ _ h]
  exact x.positive _ (List.getElem_mem h)

/-- A view that lies inside the view of an array lies inside its accessor. -/
theorem NdArray.lt_size (x : NdArray) {sh : Shape} (h : sh.space ≤ x.shape.space) {i : ℕ}
    (hi : i ∈ sh.addresses) : i < x.accessor.size :=
  ((Shape.lt_of_mem_addresses hi).trans_le h).trans_le x.fits

theorem prod_modify_length (ds : List ShapeDimension) (axis : ℕ) :
    ((ds.modify axis fun d => ⟨1, d.stride⟩).map (·.length)).prod = ((ds.map (·.length)).eraseIdx axis).prod := by
  induction ds generalizing axis with
  | nil => simp
  | cons d ds ih =>
    cases axis with
    | zero => simp
    | succ axis => simp [ih]

theorem Shape.elements_slice (sh : Shape) (axis j : ℕ) :
    (sh.slice axis j).elements = (sh.lengths.eraseIdx axis).prod := prod_modify_length _ _

theorem Shape.elements_newAxis (sh : Shape) {axis : ℕ} (h : axis ≤ sh.dimensions.length) :
    (sh.newAxis axis).elements = sh.elements := by
  simp only [Shape.elements, Shape.lengths, Shape.newAxis]
  have hperm := (List.perm_insertIdx (⟨1, 0⟩ : ShapeDimension) sh.dimensions h).map (·.length)
  rw [hperm.prod_eq]
  simp

theorem Shape.elements_removeAxis (sh : Shape) (axis : ℕ) :
    (sh.removeAxis axis).elements = (sh.lengths.eraseIdx axis).prod := by
  rw [Shape.elements, Shape.lengths, Shape.removeAxis, Shape.lengths, List.eraseIdx_map]

/-! ## Loops -/

variable {V : Type}

/-- The contents of every accessor. -/
abbrev Data (V : Type) := Accessor → ℕ → V

def Data.set (m : Data V) (a : Accessor) (i : ℕ) (v : V) : Data V :=
  Function.update m a (Function.update (m a) i v)

/-- An assignment `d[index] = value` in the body of a loop. -/
structure Assign (V : Type) where
  index : ℕ
  value : Data V → V

def loop (out : Accessor) (body : List (Assign V)) (m : Data V) : Data V :=
  body.foldl (fun m b => m.set out b.index (b.value m)) m

/-- `UFunc_Op_Inner_Nullary_Flush`; `f k` is what the call number `k` of `Op` returns. -/
def nullaryFlush (f : ℕ → V) (out : Accessor) (dst : List ℕ) : Data V → Data V :=
  loop out (dst.mapIdx fun k o => ⟨o, fun _ => f k⟩)

/-- `UFunc_Op_Inner_UnaryConv_Flush`: a `DefaultAccessor` of one element is read once. -/
def unaryFlush (dflt : Bool) (f : V → V) (in1 : Accessor) (src : List ℕ) (out : Accessor) (dst : List ℕ)
    (m : Data V) : Data V :=
  if dflt ∧ in1.size = 1 then loop out (dst.map fun o => ⟨o, fun _ => f (m in1 0)⟩) m
  else loop out ((dst.zip src).map fun p => ⟨p.1, fun m => f (m in1 p.2)⟩) m

/-- `UFunc_Op_Inner_BinaryConv_Flush` with its two scalar variants. -/
def binaryFlush (dflt : Bool) (f : V → V → V) (in1 : Accessor) (src1 : List ℕ) (in2 : Accessor)
    (src2 : List ℕ) (out : Accessor) (dst : List ℕ) (m : Data V) : Data V :=
  if dflt ∧ in1.size = 1 then
    loop out ((dst.zip src2).map fun p => ⟨p.1, fun m' => f (m in1 0) (m' in2 p.2)⟩) m
  else if dflt ∧ in2.size = 1 then
    loop out ((dst.zip src1).map fun p => ⟨p.1, fun m' => f (m' in1 p.2) (m in2 0)⟩) m
  else loop out ((dst.zip (src1.zip src2)).map fun p => ⟨p.1, fun m => f (m in1 p.2.1) (m in2 p.2.2)⟩) m

/-- The elements after the first one that a loop `for (i = stride; i < stride * length; i += stride)`
visits: none when the stride is zero. -/
def strideLoop (d : ShapeDimension) : List ℕ :=
  if d.stride = 0 then [] else List.range' 1 (d.length - 1)

/-- The five ways `UFunc_Reduce_Inner_Flush` goes. -/
inductive ReduceCase
  | copy
  | line (d : ShapeDimension)
  | columns (d₀ d₁ : ShapeDimension)
  | rows (d₀ d₁ : ShapeDimension)
  | general

def reduceCase (sh : Shape) (axis : ℕ) : ReduceCase :=
  if (sh.dim axis).length = 1 ∧ 1 < sh.dimensions.length then .copy
  else match axis, sh.dimensions with
    | 0, [d] => .line d
    | 0, [d₀, d₁] => .columns d₀ d₁
    | 1, [d₀, d₁] => .rows d₀ d₁
    | _, _ => .general

/-- `UFunc_Reduce_Inner_Flush`. -/
def reduceFlush (dflt : Bool) (f : V → V → V) (axis : ℕ) (in1 out : NdArray) (m : Data V) : Data V :=
  let a := in1.accessor
  let ix := in1.shape.offset
  let ox := out.shape.offset
  match reduceCase in1.shape axis with
  | .copy =>
    unaryFlush dflt id a (in1.shape.removeAxis axis).addresses out.accessor out.shape.addresses m
  | .line d =>
    loop out.accessor [⟨ox, fun m =>
      (strideLoop d).foldl (fun v j => f v (m a (ix + j * d.stride))) (m a ix)⟩] m
  | .columns d₀ d₁ =>
    loop out.accessor ((List.range d₁.length).map fun i => ⟨ox + i * (out.shape.dim 0).stride, fun m =>
      (List.range' 1 (d₀.length - 1)).foldl (fun v j => f v (m a (ix + i * d₁.stride + j * d₀.stride)))
        (m a (ix + i * d₁.stride))⟩) m
  | .rows d₀ d₁ =>
    loop out.accessor ((List.range d₀.length).map fun i => ⟨ox + i * (out.shape.dim 0).stride, fun m =>
      (strideLoop d₁).foldl (fun v j => f v (m a (j * d₁.stride + (ix + i * d₀.stride))))
        (m a (ix + i * d₀.stride))⟩) m
  | .general =>
    let vl := (out.shape.newAxis axis).addresses
    (List.range' 1 ((in1.shape.dim axis).length - 1)).foldl
      (fun m j => binaryFlush dflt f out.accessor vl a (in1.shape.slice axis j).addresses out.accessor vl m)
      (unaryFlush dflt id a (in1.shape.slice axis 0).addresses out.accessor vl m)

/-- `UFunc_CombineAndAggregate_Inner_Flush` on two matrices: both walk along the rows of the first. -/
def combineAndAggregate (add mul : V → V → V) (in1 in2 : NdArray) (m : Data V) : V :=
  let at1 := fun i j => m in1.accessor
    (in1.shape.offset + i * (in1.shape.dim 0).stride + j * (in1.shape.dim 1).stride)
  let row2 := (in2.shape.dim 0).stride +
    ((in1.shape.dim 1).length - (in2.shape.dim 1).length) * (in2.shape.dim 1).stride
  let at2 := fun i j => m in2.accessor (in2.shape.offset + i * row2 + j * (in2.shape.dim 1).stride)
  let pairs := (List.range (in1.shape.dim 0).length).flatMap fun i =>
    (List.range (in1.shape.dim 1).length).map fun j => (i, j)
  pairs.tail.foldl (fun r p => add r (mul (at1 p.1 p.2) (at2 p.1 p.2))) (mul (at1 0 0) (at2 0 0))

/-- The loops of `UFunc_Matmul_Inner_Flush`. `Transpose` loses the offset of the second operand. -/
def matmulLoop (add mul : V → V → V) (in1 in2 out : NdArray) : Data V → Data V :=
  loop out.accessor ((List.range (out.shape.dim 0).length).flatMap fun i =>
    (List.range (out.shape.dim 1).length).map fun j =>
      ⟨out.shape.offset + i * (out.shape.dim 0).stride + j * (out.shape.dim 1).stride, fun m =>
        let term := fun k => mul
          (m in1.accessor (in1.shape.offset + i * (in1.shape.dim 0).stride + k * (in1.shape.dim 1).stride))
          (m in2.accessor (j * (in2.shape.dim 1).stride + k * (in2.shape.dim 0).stride))
        (List.range' 1 ((in1.shape.dim 1).length - 1)).foldl (fun r k => add r (term k)) (term 0)⟩)

/-- `UFunc_Matmul_Inner_Flush`. -/
def matmulFlush (add mul : V → V → V) (in1 in2 out : NdArray) (m : Data V) : Data V :=
  if out.shape.elements = 1 then
    m.set out.accessor out.shape.offset (combineAndAggregate add mul in1 in2 m)
  else matmulLoop add mul in1 in2 out m

/-- `UFunc_Aggregate_Inner_Flush`. -/
def aggregateFlush (f : V → V → V) (in1 : NdArray) (m : Data V) : V :=
  in1.shape.addresses.tail.foldl (fun r i => f r (m in1.accessor i)) (m in1.accessor in1.shape.offset)

/-! ## Operations -/

/-- An instance of a type `C` of binary operators: the operator of `new C()`, and the one of the
instance if its fields are others. (A fresh `BinaryLambdaOp` throws; anything may stand for it.) -/
structure Operator (V : Type) where
  fresh : V → V → V
  custom : Option (V → V → V) := none

/-- `Reduce_Entry` and `Aggregate_Entry` apply the instance they are given on `DefaultAccessor`s, and
put `new C()` on the list of a `LazyAccessor`. -/
def Operator.op (f : Operator V) (dflt : Bool) : V → V → V := if dflt then f.custom.getD f.fresh else f.fresh

/-- An operation as it is registered: `SetupApplyHelper` has brought the inputs to one shape. -/
inductive Operation (V : Type)
  | nullary (f : ℕ → V) (out : NdArray)
  | unary (f : V → V) (in1 out : NdArray)
  | binary (f : V → V → V) (in1 in2 out : NdArray)
  | reduce (f : Operator V) (axis : ℕ) (in1 out : NdArray)
  | matmul (add mul : V → V → V) (in1 in2 out : NdArray)
  | aggregate (f : Operator V) (in1 : NdArray)

namespace Operation

def inputs : Operation V → List NdArray
  | nullary _ _ => []
  | unary _ in1 _ | reduce _ _ in1 _ | aggregate _ in1 => [in1]
  | binary _ in1 in2 _ | matmul _ _ in1 in2 _ => [in1, in2]

/-- The target; an aggregation has none among the arrays of the program. -/
def out? : Operation V → Option NdArray
  | nullary _ out | unary _ _ out | binary _ _ _ out | reduce _ _ _ out | matmul _ _ _ _ out => some out
  | aggregate _ _ => none

def accessors (op : Operation V) : List Accessor :=
  op.inputs.map (·.accessor) ++ op.out?.toList.map (·.accessor)

/-- The checks of `SetupApplyHelper`, `SetupReduceHelper` and `Matmul_Entry`. -/
def compatible : Operation V → Bool
  | nullary _ _ | aggregate _ _ => true
  | unary _ in1 out => in1.shape.lengths == out.shape.lengths
  | binary _ in1 in2 out => in1.shape.lengths == out.shape.lengths && in2.shape.lengths == out.shape.lengths
  | reduce _ axis in1 out =>
    decide (axis < in1.shape.lengths.length) &&
      (if in1.shape.lengths.length = 1 then [1] else in1.shape.lengths.eraseIdx axis) == out.shape.lengths
  | matmul _ _ in1 in2 out =>
    match in1.shape.lengths, in2.shape.lengths with
    | [r, n], [n', c] => n == n' && out.shape.lengths == [r, c]
    | _, _ => false

/-- What an operation does to the arrays, on `DefaultAccessor`s or on others. -/
def flush (dflt : Bool) : Operation V → Data V → Data V
  | nullary f out => nullaryFlush f out.accessor out.shape.addresses
  | unary f in1 out =>
    unaryFlush dflt f in1.accessor in1.shape.addresses out.accessor out.shape.addresses
  | binary f in1 in2 out =>
    binaryFlush dflt f in1.accessor in1.shape.addresses in2.accessor in2.shape.addresses out.accessor
      out.shape.addresses
  | reduce f axis in1 out => reduceFlush dflt (f.op dflt) axis in1 out
  | matmul add mul in1 in2 out => matmulFlush add mul in1 in2 out
  | aggregate _ _ => id

/-- The value an aggregation returns. -/
def value? (dflt : Bool) (m : Data V) : Operation V → Option V
  | aggregate f in1 => some (aggregateFlush (f.op dflt) in1 m)
  | _ => none

end Operation

/-! ## What the operations read and write -/

theorem footprint_set {R : Set Accessor} {out : Accessor} (i : ℕ) {v : Data V → V} (hout : out ∈ R)
    (hv : ∀ m m' : Data V, (∀ a ∈ R, m a = m' a) → v m = v m') :
    Footprint (fun m : Data V => m.set out i (v m)) R {out} := by
  constructor
  · intro m a ha
    exact Function.update_of_ne ha _ m
  · intro m m' hm a ha
    obtain rfl : a = out := ha
    simp only [Data.set, Function.update_self]
    rw [hm a hout, hv m m' hm]

theorem footprint_loop {R : Set Accessor} {out : Accessor} (body : List (Assign V)) (hout : out ∈ R)
    (hbody : ∀ b ∈ body, ∀ m m' : Data V, (∀ a ∈ R, m a = m' a) → b.value m = b.value m') :
    Footprint (loop out body) R {out} :=
  Footprint.foldl body (Set.singleton_subset_iff.mpr hout)
    fun b hb => footprint_set b.index hout (hbody b hb)

theorem footprint_unaryFlush {R : Set Accessor} (dflt : Bool) (f : V → V) {in1 : Accessor} (src : List ℕ)
    {out : Accessor} (dst : List ℕ) (hin1 : in1 ∈ R) (hout : out ∈ R) :
    Footprint (unaryFlush dflt f in1 src out dst) R {out} := by
  unfold unaryFlush
  split
  · apply Footprint.diag (g := fun p => loop out (dst.map fun o => ⟨o, fun _ => f (p in1 0)⟩))
    · intro p
      refine footprint_loop _ hout fun b hb m m' _ => ?_
      obtain ⟨o, _, rfl⟩ := List.mem_map.mp hb
      rfl
    · intro m m' hm
      rw [hm in1 hin1]
  · refine footprint_loop _ hout fun b hb m m' hm => ?_
    obtain ⟨p, _, rfl⟩ := List.mem_map.mp hb
    simp only [hm in1 hin1]

theorem footprint_binaryFlush {R : Set Accessor} (dflt : Bool) (f : V → V → V) {in1 in2 : Accessor}
    (src1 src2 : List ℕ) {out : Accessor} (dst : List ℕ) (hin1 : in1 ∈ R) (hin2 : in2 ∈ R) (hout : out ∈ R) :
    Footprint (binaryFlush dflt f in1 src1 in2 src2 out dst) R {out} := by
  unfold binaryFlush
  split
  · apply Footprint.diag
      (g := fun q => loop out ((dst.zip src2).map fun p => ⟨p.1, fun m => f (q in1 0) (m in2 p.2)⟩))
    · intro q
      refine footprint_loop _ hout fun b hb m m' hm => ?_
      obtain ⟨p, _, rfl⟩ := List.mem_map.mp hb
      simp only [hm in2 hin2]
    · intro m m' hm
      rw [hm in1 hin1]
  split
  · apply Footprint.diag
      (g := fun q => loop out ((dst.zip src1).map fun p => ⟨p.1, fun m => f (m in1 p.2) (q in2 0)⟩))
    · intro q
      refine footprint_loop _ hout fun b hb m m' hm => ?_
      obtain ⟨p, _, rfl⟩ := List.mem_map.mp hb
      simp only [hm in1 hin1]
    · intro m m' hm
      rw [hm in2 hin2]
  · refine footprint_loop _ hout fun b hb m m' hm => ?_
    obtain ⟨p, _, rfl⟩ := List.mem_map.mp hb
    simp only [hm in1 hin1, hm in2 hin2]

theorem footprint_reduceFlush {R : Set Accessor} (dflt : Bool) (f : V → V → V) (axis : ℕ) {in1 out : NdArray}
    (hin1 : in1.accessor ∈ R) (hout : out.accessor ∈ R) :
    Footprint (reduceFlush dflt f axis in1 out) R {out.accessor} := by
  unfold reduceFlush
  cases reduceCase in1.shape axis with
  | copy => exact footprint_unaryFlush dflt id _ _ hin1 hout
  | line d =>
    refine footprint_loop _ hout fun b hb m m' hm => ?_
    obtain rfl := List.mem_singleton.mp hb
    simp only [hm in1.accessor hin1]
  | columns d₀ d₁ =>
    refine footprint_loop _ hout fun b hb m m' hm => ?_
    obtain ⟨i, _, rfl⟩ := List.mem_map.mp hb
    simp only [hm in1.accessor hin1]
  | rows d₀ d₁ =>
    refine footprint_loop _ hout fun b hb m m' hm => ?_
    obtain ⟨i, _, rfl⟩ := List.mem_map.mp hb
    simp only [hm in1.accessor hin1]
  | general =>
    have hWR : ({out.accessor} : Set Accessor) ⊆ R := Set.singleton_subset_iff.mpr hout
    have hsteps := Footprint.foldl (List.range' 1 ((in1.shape.dim axis).length - 1)) hWR fun j _ =>
      footprint_binaryFlush dflt f (out.shape.newAxis axis).addresses (in1.shape.slice axis j).addresses
        (out.shape.newAxis axis).addresses hout hin1 hout
    exact (footprint_unaryFlush dflt id _ _ hin1 hout).comp hsteps

theorem footprint_matmulFlush {R : Set Accessor} (add mul : V → V → V) {in1 in2 out : NdArray}
    (hin1 : in1.accessor ∈ R) (hin2 : in2.accessor ∈ R) (hout : out.accessor ∈ R) :
    Footprint (matmulFlush add mul in1 in2 out) R {out.accessor} := by
  unfold matmulFlush
  split
  · refine footprint_set _ hout fun m m' hm => ?_
    simp only [combineAndAggregate, hm in1.accessor hin1, hm in2.accessor hin2]
  · refine footprint_loop _ hout fun b hb m m' hm => ?_
    obtain ⟨i, _, hb⟩ := List.mem_flatMap.mp hb
    obtain ⟨j, _, rfl⟩ := List.mem_map.mp hb
    simp only [hm in1.accessor hin1, hm in2.accessor hin2]

namespace Operation

/-- An operation changes its target only, as its operands determine. -/
theorem footprint_flush (dflt : Bool) (op : Operation V) :
    Footprint (op.flush dflt) {a | a ∈ op.accessors} {a | a ∈ op.out?.map (·.accessor)} := by
  cases op with
  | nullary f out =>
    simp only [out?, Option.map_some, Option.mem_some_iff, eq_comm (a := out.accessor)]
    refine footprint_loop _ (by simp [accessors, inputs, out?]) fun b hb m m' _ => ?_
    obtain ⟨k, _, rfl⟩ := List.mem_mapIdx.mp hb
    rfl
  | unary f in1 out =>
    simp only [out?, Option.map_some, Option.mem_some_iff, eq_comm (a := out.accessor)]
    apply footprint_unaryFlush <;> simp [accessors, inputs, out?]
  | binary f in1 in2 out =>
    simp only [out?, Option.map_some, Option.mem_some_iff, eq_comm (a := out.accessor)]
    apply footprint_binaryFlush <;> simp [accessors, inputs, out?]
  | reduce f axis in1 out =>
    simp only [out?, Option.map_some, Option.mem_some_iff, eq_comm (a := out.accessor)]
    apply footprint_reduceFlush <;> simp [accessors, inputs, out?]
  | matmul add mul in1 in2 out =>
    simp only [out?, Option.map_some, Option.mem_some_iff, eq_comm (a := out.accessor)]
    apply footprint_matmulFlush <;> simp [accessors, inputs, out?]
  | aggregate f in1 => exact ⟨fun _ _ _ => rfl, fun _ _ _ a ha => by simp [out?] at ha⟩

/-- An operation and an assignment to an element of an array it does not use commute. -/
theorem flush_set (dflt : Bool) {op : Operation V} {a : Accessor} (h : a ∉ op.accessors) (i : ℕ) (v : V)
    (m : Data V) : op.flush dflt (m.set a i v) = (op.flush dflt m).set a i v := by
  have hset : Footprint (fun m : Data V => m.set a i v) {a} {a} :=
    footprint_set i (Set.mem_singleton a) fun _ _ _ => rfl
  have htarget : a ∉ op.out?.map (·.accessor) := by
    intro hm
    apply h
    obtain ⟨out, hout, rfl⟩ := Option.mem_map.mp hm
    refine List.mem_append_right _ (List.mem_map_of_mem ?_)
    exact Option.mem_toList.mpr hout
  refine hset.comm (op.footprint_flush dflt) ?_ ?_ ?_ m
  · exact Set.disjoint_singleton_left.mpr h
  · exact Set.disjoint_singleton_left.mpr htarget
  · exact Set.disjoint_singleton_left.mpr htarget

end Operation

/-! ## The scalar variants

With `DefaultAccessor`s the loops read an operand of one element once. The result is the same unless
the loop itself writes that element before it is done reading it. -/

theorem scalar_loop {β : Type} (g : β → V → Data V → V) (index : β → ℕ) (in1 out : Accessor)
    {l : List (ℕ × β)} (hindex : ∀ p ∈ l, index p.2 = 0) (hfree : in1 ≠ out ∨ l.length ≤ 1) (m : Data V) :
    loop out (l.map fun p => ⟨p.1, fun m' => g p.2 (m in1 0) m'⟩) m =
      loop out (l.map fun p => ⟨p.1, fun m' => g p.2 (m' in1 (index p.2)) m'⟩) m := by
  obtain hne | hlen := hfree
  · -- the loop leaves `in1` as it is
    have key : ∀ m' : Data V, m' in1 = m in1 →
        loop out (l.map fun p => ⟨p.1, fun m' => g p.2 (m in1 0) m'⟩) m' =
          loop out (l.map fun p => ⟨p.1, fun m' => g p.2 (m' in1 (index p.2)) m'⟩) m' := by
      induction l with
      | nil => exact fun m' _ => rfl
      | cons p l ih =>
        intro m' hm'
        have hp := hindex p List.mem_cons_self
        simp only [loop, List.map_cons, List.foldl_cons, hm', hp]
        apply ih fun q hq => hindex q (List.mem_cons_of_mem p hq)
        exact (Function.update_of_ne hne _ m').trans hm'
    exact key m rfl
  · match l, hlen with
    | [], _ => rfl
    | [p], _ =>
      have hp := hindex p List.mem_cons_self
      simp [loop, hp]

theorem map_zip_zip_right {α β γ : Type} {as : List α} {bs : List β} (cs : List γ) (h : bs.length = as.length) :
    (as.zip (bs.zip cs)).map (fun p => (p.1, p.2.2)) = as.zip cs := by
  induction as generalizing bs cs with
  | nil => rfl
  | cons a as ih =>
    match bs, cs, h with
    | b :: bs, [], _ => rfl
    | b :: bs, c :: cs, h => simp [ih cs (Nat.succ.inj h)]

theorem map_zip_zip_left {α β γ : Type} {as : List α} (bs : List β) {cs : List γ} (h : cs.length = as.length) :
    (as.zip (bs.zip cs)).map (fun p => (p.1, p.2.1)) = as.zip bs := by
  induction as generalizing bs cs with
  | nil => rfl
  | cons a as ih =>
    match bs, cs, h with
    | [], c :: cs, _ => rfl
    | b :: bs, c :: cs, h => simp [ih bs (Nat.succ.inj h)]

theorem unaryFlush_dflt (f : V → V) {in1 out : Accessor} {src dst : List ℕ} (hlen : src.length = dst.length)
    (hsrc : ∀ i ∈ src, i < in1.size) (hfree : in1.size = 1 → in1 ≠ out ∨ dst.length ≤ 1) (m : Data V) :
    unaryFlush true f in1 src out dst m = unaryFlush false f in1 src out dst m := by
  by_cases hsize : in1.size = 1
  · have hdst : (dst.zip src).map Prod.fst = dst := List.map_fst_zip hlen.ge
    have h := scalar_loop (fun _ x _ => f x) (fun i => i) in1 out (l := dst.zip src)
      (fun p hp => by
        have := hsrc p.2 (List.of_mem_zip hp).2
        omega)
      ((hfree hsize).imp id fun h => by simp only [List.length_zip]; omega) m
    simp only [unaryFlush, hsize, and_self, if_true, Bool.false_eq_true, false_and, if_false]
    rw [← h, ← hdst, List.map_map, hdst]
    rfl
  · simp [unaryFlush, hsize]

theorem binaryFlush_dflt (f : V → V → V) {in1 in2 out : Accessor} {src1 src2 dst : List ℕ}
    (hlen1 : src1.length = dst.length) (hlen2 : src2.length = dst.length)
    (hsrc1 : ∀ i ∈ src1, i < in1.size) (hsrc2 : ∀ i ∈ src2, i < in2.size)
    (hfree1 : in1.size = 1 → in1 ≠ out ∨ dst.length ≤ 1)
    (hfree2 : in1.size ≠ 1 → in2.size = 1 → in2 ≠ out ∨ dst.length ≤ 1) (m : Data V) :
    binaryFlush true f in1 src1 in2 src2 out dst m = binaryFlush false f in1 src1 in2 src2 out dst m := by
  have hshort : dst.length ≤ 1 → (dst.zip (src1.zip src2)).length ≤ 1 := by
    simp only [List.length_zip]
    omega
  by_cases hsize1 : in1.size = 1
  · have h := scalar_loop (fun (p : ℕ × ℕ) x m => f x (m in2 p.2)) Prod.fst in1 out
      (l := dst.zip (src1.zip src2))
      (fun p hp => by
        have := hsrc1 p.2.1 (List.of_mem_zip (List.of_mem_zip hp).2).1
        omega)
      ((hfree1 hsize1).imp id hshort) m
    simp only [binaryFlush, hsize1, and_self, if_true, Bool.false_eq_true, false_and, if_false]
    rw [← h, ← map_zip_zip_right src2 hlen1, List.map_map]
    rfl
  by_cases hsize2 : in2.size = 1
  · have h := scalar_loop (fun (p : ℕ × ℕ) y m => f (m in1 p.1) y) Prod.snd in2 out
      (l := dst.zip (src1.zip src2))
      (fun p hp => by
        have := hsrc2 p.2.2 (List.of_mem_zip (List.of_mem_zip hp).2).2
        omega)
      ((hfree2 hsize1 hsize2).imp id hshort) m
    simp only [binaryFlush, hsize1, hsize2, and_false, and_self, if_true, Bool.false_eq_true, false_and, if_false]
    rw [← h, ← map_zip_zip_left src1 hlen2, List.map_map]
    rfl
  · simp [binaryFlush, hsize1, hsize2]

theorem reduceCase_general {sh : Shape} {axis : ℕ} (haxis : axis < sh.dimensions.length)
    (h : reduceCase sh axis = .general) : sh.dimensions.length ≠ 1 := by
  intro hone
  obtain ⟨d, hd⟩ := List.length_eq_one_iff.mp hone
  obtain rfl : axis = 0 := by omega
  simp [reduceCase, hd] at h

theorem reduceFlush_dflt (f : V → V → V) {axis : ℕ} {in1 out : NdArray}
    (haxis : axis < in1.shape.dimensions.length)
    (hlen : in1.shape.dimensions.length ≠ 1 → in1.shape.lengths.eraseIdx axis = out.shape.lengths)
    (hcopy : reduceCase in1.shape axis = .copy → out.accessor.size = 1 → in1.accessor = out.accessor →
      out.shape.elements = 1)
    (hgeneral : reduceCase in1.shape axis = .general → out.accessor.size = 1 → out.shape.elements = 1)
    (m : Data V) : reduceFlush true f axis in1 out m = reduceFlush false f axis in1 out m := by
  cases hcase : reduceCase in1.shape axis with
  | copy =>
    have hrank : 1 < in1.shape.dimensions.length := by
      by_contra hrank
      revert hcase
      simp only [reduceCase, hrank, and_false, if_false]
      split <;> simp
    have helem : (in1.shape.removeAxis axis).elements = out.shape.elements := by
      rw [Shape.elements_removeAxis, hlen (by omega)]
      rfl
    simp only [reduceFlush, hcase]
    apply unaryFlush_dflt
    · rw [Shape.length_addresses, Shape.length_addresses, helem]
    · exact fun i hi => in1.lt_size (Shape.space_removeAxis _ _) hi
    · intro hsize
      by_cases he : in1.accessor = out.accessor
      · right
        rw [Shape.length_addresses, hcopy hcase (he ▸ hsize) he]
      · exact Or.inl he
  | line d => simp only [reduceFlush, hcase]
  | columns d₀ d₁ => simp only [reduceFlush, hcase]
  | rows d₀ d₁ => simp only [reduceFlush, hcase]
  | general =>
    have hrank := reduceCase_general haxis hcase
    have hlen := hlen hrank
    have hout : axis ≤ out.shape.dimensions.length := by
      have := congrArg List.length hlen
      simp only [Shape.lengths, List.length_eraseIdx, List.length_map, haxis, if_true] at this
      omega
    have hvl : (out.shape.newAxis axis).addresses.length = out.shape.elements := by
      rw [Shape.length_addresses, Shape.elements_newAxis _ hout]
    have hslice : ∀ j, (in1.shape.slice axis j).addresses.length = (out.shape.newAxis axis).addresses.length := by
      intro j
      rw [hvl, Shape.length_addresses, Shape.elements_slice, hlen]
      rfl
    have hshort : out.accessor.size = 1 → (out.shape.newAxis axis).addresses.length ≤ 1 := by
      intro hsize
      rw [hvl, hgeneral hcase hsize]
    have hfree : in1.accessor.size = 1 →
        in1.accessor ≠ out.accessor ∨ (out.shape.newAxis axis).addresses.length ≤ 1 := by
      intro hsize
      by_cases he : in1.accessor = out.accessor
      · exact Or.inr (hshort (he ▸ hsize))
      · exact Or.inl he
    simp only [reduceFlush, hcase]
    rw [unaryFlush_dflt id (hslice 0) (fun i hi => in1.lt_size (Shape.space_slice _ _ _ (in1.dim_pos haxis)) hi)
      hfree m]
    apply foldl_congr
    intro j hj m'
    obtain ⟨k, hk, rfl⟩ := List.mem_range'.mp hj
    apply binaryFlush_dflt f rfl (hslice _)
    · exact fun i hi => out.lt_size (Shape.space_newAxis _ hout).le hi
    · exact fun i hi => in1.lt_size (Shape.space_slice _ _ _ (by omega)) hi
    · exact fun h => Or.inr (hshort h)
    · exact fun _ h => hfree h

namespace Operation

/-- The target is a view with several elements of one element, and the loop takes that element for a
scalar operand. -/
def rewritesScalar : Operation V → Bool
  | unary _ in1 out =>
    decide (out.accessor.size = 1 ∧ out.shape.elements ≠ 1 ∧ in1.accessor = out.accessor)
  | binary _ in1 in2 out =>
    decide (out.accessor.size = 1 ∧ out.shape.elements ≠ 1 ∧
      if in1.accessor.size = 1 then in1.accessor = out.accessor else in2.accessor = out.accessor)
  | reduce _ axis in1 out =>
    decide (out.accessor.size = 1 ∧ out.shape.elements ≠ 1) &&
      match reduceCase in1.shape axis with
      | .copy => decide (in1.accessor = out.accessor)
      | .general => true
      | _ => false
  | _ => false

/-- `new C()` is the operator that was given. -/
def keepsOperator : Operation V → Bool
  | reduce f _ _ _ | aggregate f _ => f.custom.isNone
  | _ => true

theorem op_dflt {f : Operator V} (h : f.custom.isNone = true) : f.op true = f.op false := by
  simp [Operator.op, Option.isNone_iff_eq_none.mp h]

theorem flush_dflt {op : Operation V} (hc : op.compatible = true) (h : op.rewritesScalar = false)
    (hkeeps : op.keepsOperator = true) (m : Data V) : op.flush true m = op.flush false m := by
  cases op with
  | nullary f out => rfl
  | aggregate f in1 => rfl
  | matmul add mul in1 in2 out => rfl
  | unary f in1 out =>
    simp only [compatible, beq_iff_eq] at hc
    simp only [rewritesScalar, decide_eq_false_iff_not, not_and] at h
    have helem : in1.shape.elements = out.shape.elements := congrArg List.prod hc
    apply unaryFlush_dflt
    · rw [Shape.length_addresses, Shape.length_addresses, helem]
    · exact fun i hi => in1.lt_size le_rfl hi
    · intro hsize
      by_cases he : in1.accessor = out.accessor
      · right
        by_contra hmany
        rw [Shape.length_addresses] at hmany
        exact h (he ▸ hsize) (by omega) he
      · exact Or.inl he
  | binary f in1 in2 out =>
    simp only [compatible, Bool.and_eq_true, beq_iff_eq] at hc
    simp only [rewritesScalar, decide_eq_false_iff_not] at h
    have helem1 : in1.shape.elements = out.shape.elements := congrArg List.prod hc.1
    have helem2 : in2.shape.elements = out.shape.elements := congrArg List.prod hc.2
    apply binaryFlush_dflt
    · rw [Shape.length_addresses, Shape.length_addresses, helem1]
    · rw [Shape.length_addresses, Shape.length_addresses, helem2]
    · exact fun i hi => in1.lt_size le_rfl hi
    · exact fun i hi => in2.lt_size le_rfl hi
    · intro hsize
      by_cases he : in1.accessor = out.accessor
      · right
        by_contra hmany
        rw [Shape.length_addresses] at hmany
        exact h ⟨he ▸ hsize, by omega, by rwa [if_pos hsize]⟩
      · exact Or.inl he
    · intro hsize1 hsize2
      by_cases he : in2.accessor = out.accessor
      · right
        by_contra hmany
        rw [Shape.length_addresses] at hmany
        exact h ⟨he ▸ hsize2, by omega, by rwa [if_neg hsize1]⟩
      · exact Or.inl he
  | reduce f axis in1 out =>
    simp only [compatible, Bool.and_eq_true, decide_eq_true_eq, beq_iff_eq] at hc
    obtain ⟨haxis, hlen⟩ := hc
    simp only [rewritesScalar] at h
    have hrank : in1.shape.lengths.length = in1.shape.dimensions.length := List.length_map _
    simp only [flush, op_dflt hkeeps]
    apply reduceFlush_dflt (f.op false) (hrank ▸ haxis)
    · intro hne
      rwa [if_neg (hrank ▸ hne)] at hlen
    · intro hcase hsize he
      by_contra hmany
      simp [hcase, hsize, hmany, he] at h
    · intro hcase hsize
      by_contra hmany
      simp [hcase, hsize, hmany] at h

end Operation

end Bohrium.NumCil
