import Bohrium.NumCil.Chain
import Bohrium.NumCil.ThreadRunner

/-! # Operations in blocks

`Threads`: an elementwise operation on an array with enough rows is done in blocks of rows, one for each thread of
the runner. A thread takes one step for each element. -/
namespace Bohrium.NumCil.Threads
open Strided Walk Pointers Jobs
open Matrix (vecHead vecTail)
set_option autoImplicit false

variable {V : Type}

/-- The first row of a block. -/
def blockOffset (length blockno nblocks : ℕ) : ℕ := if blockno = 0 then 0 else length / nblocks * blockno + length % nblocks

def blockLength (length blockno nblocks : ℕ) : ℕ := length / nblocks + if blockno = 0 then length % nblocks else 0

/-- `Reshape`, `none` if it throws. -/
def reshape (arg : NdArray) (blockno nblocks dimension : ℕ) : Option NdArray :=
  (arg.shape.dim? dimension).bind fun d =>
    let lengths := arg.shape.lengths.set dimension (blockLength d.length blockno nblocks)
    let offset := arg.shape.offset + blockOffset d.length blockno nblocks * d.stride
    (Shape.make (List.zipWith (fun (n : ℕ) d => ((n : ℤ), (d.stride : ℤ))) lengths arg.shape.dimensions) offset).bind arg.reshape

/-- The contents, `none` once a thread has thrown. -/
abbrev Memory (V : Type) := Option (Data V)

section
variable {n : ℕ} (shapes : Fin (n + 1) → Shape) (lim cnt : Fin (n + 1)) (body : (Fin (n + 1) → ℤ) → Data V → Option (Data V))

/-- The loops of a `Flush`, step by step. -/
def trace : List (Memory V → Memory V) :=
  (flushLoops shapes lim cnt (fun ix steps => some (steps ++ [fun m => m.bind (body ix)])) []).getD [fun _ => none]

end

/-- The body of the loops of `scalarSteps`. -/
def scalarElement (f : V → V) (in1 out : Accessor) (ix : Fin 2 → ℤ) (m : Data V) : Option (Data V) :=
  (in1.read m (ix 0)).bind fun x => out.write m (ix 1) (f x)

/-- `UFunc_Op_Inner_BinaryConv_LhsScalar_Flush` and `UFunc_Op_Inner_BinaryConv_RhsScalar_Flush`. -/
def scalarSteps (f : V → V) (in1 out : NdArray) : List (Memory V → Memory V) :=
  trace ![in1.shape, out.shape] (Fin.last 1) (Fin.last 1) (scalarElement f in1.accessor out.accessor)

/-- The body of the loops of `binarySteps`. -/
def binaryElement (f : V → V → V) (in1 in2 out : Accessor) (ix : Fin 3 → ℤ) (m : Data V) : Option (Data V) :=
  (in1.read m (vecHead ix)).bind fun x => (in2.read m (vecHead (vecTail ix))).bind fun y => out.write m (ix (Fin.last 2)) (f x y)

/-- `UFunc_Op_Inner_BinaryConv_Flush`, begun with the contents `m`. -/
def binarySteps (dflt1 dflt2 : Bool) (f : V → V → V) (in1 in2 out : NdArray) (m : Data V) : List (Memory V → Memory V) :=
  if in1.accessor.size = 1 ∧ dflt1 then
    (in1.accessor.read m 0).elim [fun _ => none] fun scalar => scalarSteps (f scalar) in2 out
  else if in2.accessor.size = 1 ∧ dflt2 then
    (in2.accessor.read m 0).elim [fun _ => none] fun scalar => scalarSteps (f · scalar) in1 out
  else trace ![in1.shape, in2.shape, out.shape] (0 : Fin 2).castSucc (Fin.last 2) (binaryElement f in1.accessor in2.accessor out.accessor)

/-- What `BinaryOp` is called with. -/
structure BinaryCall (V : Type) where
  dflt1 : Bool
  dflt2 : Bool
  op : V → V → V
  in1 : NdArray
  in2 : NdArray
  out : NdArray

/-- The condition of `BinaryOp`. -/
def BinaryCall.Threaded (nblocks : ℕ) (c : BinaryCall V) : Prop := 1 < nblocks ∧ nblocks ≤ (c.out.shape.dim 0).length

/-- The action that `BinaryOp` gives to the runner. -/
def binaryOp (nblocks : ℕ) (c : BinaryCall V) : Job (Memory V) := fun block m =>
  m.elim [] fun m => (do
    let in1 ← reshape c.in1 block nblocks 0
    let in2 ← reshape c.in2 block nblocks 0
    let out ← reshape c.out block nblocks 0
    pure (binarySteps c.dflt1 c.dflt2 c.op in1 in2 out m)).getD [fun _ => none]

/-- The other branch of `BinaryOp`. -/
def BinaryCall.flush (c : BinaryCall V) (m : Data V) : Option (Data V) :=
  binaryInnerFlush c.dflt1 c.dflt2 c.op c.in1 c.in2 c.out m

/-- Two views do not have an element in common, or have it at one place. -/
def Aligned (x y : NdArray) : Prop :=
  x.accessor = y.accessor → ∀ idx ∈ indices y.shape.lengths, ∀ idx' ∈ indices y.shape.lengths,
    x.shape.address idx = y.shape.address idx' → idx = idx'

/-- The operands have one shape, the output has no element twice, and none of its elements is read for another one. -/
structure BinaryCall.Fits (c : BinaryCall V) : Prop where
  lengths1 : c.in1.shape.lengths = c.out.shape.lengths
  lengths2 : c.in2.shape.lengths = c.out.shape.lengths
  nodup : c.out.shape.addresses.Nodup
  aligned1 : Aligned c.in1 c.out
  aligned2 : Aligned c.in2 c.out

/-! ## Blocks -/

theorem blockLength_succ (length k nblocks : ℕ) : blockLength length (k + 1) nblocks = length / nblocks := by
  rw [blockLength, if_neg (Nat.succ_ne_zero k), Nat.add_zero]

theorem blockOffset_succ (length k nblocks : ℕ) :
    blockOffset length (k + 1) nblocks = length / nblocks * (k + 1) + length % nblocks := by
  rw [blockOffset, if_neg (Nat.succ_ne_zero k)]

theorem block_end (length k nblocks : ℕ) : length / nblocks * (k + 1 + 1) + length % nblocks =
    (length / nblocks * (k + 1) + length % nblocks) + length / nblocks := by
  rw [Nat.mul_succ]
  omega

/-- The blocks are the rows in order. -/
theorem blocks_rows {length nblocks : ℕ} (hblocks : 0 < nblocks) :
    ((List.range nblocks).flatMap fun b => (List.range (blockLength length b nblocks)).map (· + blockOffset length b nblocks)) =
      List.range length := by
  have hupto : ∀ k, ((List.range (k + 1)).flatMap fun b =>
      (List.range (blockLength length b nblocks)).map (· + blockOffset length b nblocks)) =
        List.range (length / nblocks * (k + 1) + length % nblocks) := by
    intro k
    induction k with
    | zero => simp [blockLength, blockOffset]
    | succ k ih =>
      have hrange := List.range_add (n := length / nblocks * (k + 1) + length % nblocks) (m := length / nblocks)
      rw [List.range_succ, List.flatMap_append, ih, List.flatMap_singleton, blockLength_succ, blockOffset_succ, block_end, hrange]
      congr 1
      exact List.map_congr_left fun i _ => Nat.add_comm i _
  obtain ⟨k, rfl⟩ := Nat.exists_eq_succ_of_ne_zero hblocks.ne'
  rw [hupto k, Nat.mul_comm, Nat.div_add_mod]

theorem blocks_indices {length nblocks : ℕ} (hblocks : 0 < nblocks) (ls : List ℕ) :
    ((List.range nblocks).flatMap fun b =>
      (indices (blockLength length b nblocks :: ls)).map fun idx => idx.modify 0 (· + blockOffset length b nblocks)) =
      indices (length :: ls) := by
  have hrows := @blocks_rows length nblocks hblocks
  rw [indices, ← hrows, List.flatMap_assoc]
  apply List.flatMap_congr
  intro b _
  rw [indices, List.map_flatMap, List.flatMap_map]
  apply List.flatMap_congr
  intro i _
  rw [List.map_map]
  rfl

section
variable {length nblocks b : ℕ}

theorem blockLength_pos (hblocks : 0 < nblocks) (hle : nblocks ≤ length) : 0 < blockLength length b nblocks := by
  have := Nat.div_pos hle hblocks
  unfold blockLength
  omega

theorem block_row_mem (hb : b < nblocks) {i : ℕ} (hi : i < blockLength length b nblocks) :
    i + blockOffset length b nblocks < length := by
  rw [← List.mem_range, ← blocks_rows (Nat.zero_lt_of_lt hb), List.mem_flatMap]
  exact ⟨b, List.mem_range.mpr hb, List.mem_map.mpr ⟨i, List.mem_range.mpr hi, rfl⟩⟩

theorem block_row_lt {b' i : ℕ} (hi : i < blockLength length b nblocks) (hne : b < b') (i' : ℕ) :
    i + blockOffset length b nblocks < i' + blockOffset length b' nblocks := by
  have hmul : length / nblocks * (b + 1) ≤ length / nblocks * b' := Nat.mul_le_mul_left _ hne
  rw [Nat.mul_succ] at hmul
  have hoff : blockOffset length b' nblocks = length / nblocks * b' + length % nblocks := if_neg (by omega)
  rw [hoff]
  unfold blockLength at hi
  unfold blockOffset
  split at hi
  · next hzero =>
    subst hzero
    rw [if_pos rfl]
    omega
  · next hzero =>
    rw [if_neg hzero]
    omega

end

section
variable {x : NdArray} {b nblocks dim : ℕ}

/-- The view of a block. -/
theorem reshape_spec (hdim : dim < x.shape.dimensions.length) (hb : b < nblocks) (hle : nblocks ≤ (x.shape.dim dim).length) :
    ∃ y, reshape x b nblocks dim = some y ∧ y.accessor = x.accessor ∧
      y.shape = x.shape.cut dim (blockOffset (x.shape.dim dim).length b nblocks) (blockLength (x.shape.dim dim).length b nblocks) := by
  have hblocks := Nat.zero_lt_of_lt hb
  have hdim? : x.shape.dim? dim = some (x.shape.dim dim) := by
    rw [Shape.dim?, Shape.dim, List.getD_eq_getElem _ _ hdim, List.getElem?_eq_getElem hdim]
  have hlength := @blockLength_pos (x.shape.dim dim).length nblocks b hblocks hle
  have hpos : ∀ n ∈ (x.shape.cut dim (blockOffset (x.shape.dim dim).length b nblocks)
      (blockLength (x.shape.dim dim).length b nblocks)).lengths, 0 < n := by
    intro n hn
    obtain ⟨d, hd, rfl⟩ := List.mem_map.mp hn
    exact shape_modify_pos hlength d hd
  have hdims : List.zipWith (fun (n : ℕ) (d : ShapeDimension) => ((n : ℤ), (d.stride : ℤ)))
      (x.shape.lengths.set dim (blockLength (x.shape.dim dim).length b nblocks)) x.shape.dimensions =
        (x.shape.cut dim (blockOffset (x.shape.dim dim).length b nblocks) (blockLength (x.shape.dim dim).length b nblocks)).dimensions.map
          fun d => ((d.length : ℤ), (d.stride : ℤ)) := by
    apply List.ext_getElem
    · simp [Shape.cut, Shape.lengths]
    · intro i hi hi'
      simp only [Shape.cut, Shape.lengths, List.getElem_zipWith, List.getElem_map, List.getElem_modify, List.getElem_set]
      split <;> rfl
  have hmake := @make_cast (x.shape.cut dim (blockOffset (x.shape.dim dim).length b nblocks)
    (blockLength (x.shape.dim dim).length b nblocks)).dimensions ?_ (fun d hd => hpos _ (List.mem_map_of_mem hd))
    (x.shape.offset + blockOffset (x.shape.dim dim).length b nblocks * (x.shape.dim dim).stride)
  · rw [reshape, hdim?, Option.bind_some]
    dsimp only
    push_cast at hmake ⊢
    rw [hdims, hmake, Option.bind_some]
    apply reshape_of_address rfl hpos
    intro idx hidx
    have hlen := (mem_indices.mp hidx).length_eq
    rw [lengths_cut, List.length_set] at hlen
    rw [lengths_cut] at hidx
    refine ⟨idx.modify dim (· + blockOffset (x.shape.dim dim).length b nblocks), ?_, address_cut hdim _ _ ?_⟩
    · have hmem := @modify_mem _ _ _ _ (x.shape.dim dim).length (· + blockOffset (x.shape.dim dim).length b nblocks)
        (fun i hi => block_row_mem hb hi) hidx
      have hset : x.shape.lengths.set dim (x.shape.dim dim).length = x.shape.lengths := by rw [Shape.length_dim, set_getD]
      rwa [hset] at hmem
    · rw [hlen, Shape.lengths, List.length_map]
  · intro hnil
    have := congrArg List.length hnil
    rw [Shape.cut, List.length_modify, List.length_nil] at this
    omega

end

/-! ## Steps -/

section
variable {n : ℕ} {shapes : Fin (n + 1) → Shape} {lim cnt : Fin (n + 1)} {body : (Fin (n + 1) → ℤ) → Data V → Option (Data V)}
  {ls : List ℕ}

theorem trace_eq (hls : ∀ k, (shapes k).lengths = ls) (hrank : ls ≠ []) :
    trace shapes lim cnt body = (indices ls).map fun idx m => m.bind (body (pointers shapes idx)) := by
  have hvisit : ∀ (order : List (List ℕ)) (steps : List (Memory V → Memory V)),
      visit (fun ix steps => some (steps ++ [fun m => m.bind (body ix)])) (order.map (pointers shapes)) steps =
        some (steps ++ order.map fun idx m => m.bind (body (pointers shapes idx))) := by
    intro order
    induction order with
    | nil => exact fun steps => congrArg some (List.append_nil steps).symm
    | cons idx order ih =>
      intro steps
      rw [List.map_cons, visit, List.foldlM_cons]
      refine (ih _).trans ?_
      rw [List.append_assoc]
      rfl
  rw [trace, flushLoops_eq hls hrank, hvisit]
  rfl

theorem exec_trace (hls : ∀ k, (shapes k).lengths = ls) (hrank : ls ≠ []) (m : Data V) :
    exec (trace shapes lim cnt body) (some m) = flushLoops shapes lim cnt body m := by
  rw [trace_eq hls hrank, flushLoops_eq hls hrank]
  have hfold : ∀ (order : List (List ℕ)) (o : Memory V), exec (order.map fun idx m => m.bind (body (pointers shapes idx))) o =
      o.bind fun m => visit body (order.map (pointers shapes)) m := by
    intro order
    induction order with
    | nil => exact fun o => (Option.bind_fun_some o).symm
    | cons idx order ih =>
      intro o
      rw [List.map_cons, exec, List.foldl_cons]
      refine (ih _).trans ?_
      rw [Option.bind_assoc]
      rfl
  exact hfold _ _

/-- Loops whose body assigns one element. -/
theorem trace_assign (hls : ∀ k, (shapes k).lengths = ls) (hrank : ls ≠ []) (out : Accessor) (target : List ℕ → ℕ)
    (value : Data V → List ℕ → V)
    (hbody : ∀ idx ∈ indices ls, ∀ m, body (pointers shapes idx) m = some (m.set out (target idx) (value m idx))) :
    trace shapes lim cnt body = (indices ls).map fun idx => Option.map fun m => m.set out (target idx) (value m idx) := by
  rw [trace_eq hls hrank]
  apply List.map_congr_left
  intro idx hidx
  funext o
  cases o with
  | none => rfl
  | some m => exact hbody idx hidx m

end

/-- What is assigned to an element, if the operand that is read once is read in `start`. -/
def binaryValue (dflt1 dflt2 : Bool) (f : V → V → V) (in1 in2 : Accessor) (start m : Data V) (i1 i2 : ℕ) : V :=
  if in1.size = 1 ∧ dflt1 then f (start in1 0) (m in2 i2)
  else if in2.size = 1 ∧ dflt2 then f (m in1 i1) (start in2 0)
  else f (m in1 i1) (m in2 i2)

def binaryAssign (dflt1 dflt2 : Bool) (f : V → V → V) (in1 in2 out : Accessor) (start : Data V) (i1 i2 o : ℕ) : Memory V → Memory V :=
  Option.map fun m => m.set out o (binaryValue dflt1 dflt2 f in1 in2 start m i1 i2)

section
variable (dflt1 dflt2 : Bool) (f : V → V → V) {in1 in2 out : NdArray} (h1 : in1.shape.lengths = out.shape.lengths)
  (h2 : in2.shape.lengths = out.shape.lengths) (hrank : out.shape.lengths ≠ []) (m : Data V)
include h1 h2 hrank

theorem binarySteps_eq : binarySteps dflt1 dflt2 f in1 in2 out m = (indices out.shape.lengths).map fun idx =>
    binaryAssign dflt1 dflt2 f in1.accessor in2.accessor out.accessor m (in1.shape.address idx) (in2.shape.address idx)
      (out.shape.address idx) := by
  have hread1 : ∀ idx ∈ indices out.shape.lengths, ∀ m : Data V,
      in1.accessor.read m (in1.shape.address idx) = some (m in1.accessor (in1.shape.address idx)) :=
    fun idx hidx m => Accessor.read_of_lt (in1.address_lt (h1 ▸ hidx)) m
  have hread2 : ∀ idx ∈ indices out.shape.lengths, ∀ m : Data V,
      in2.accessor.read m (in2.shape.address idx) = some (m in2.accessor (in2.shape.address idx)) :=
    fun idx hidx m => Accessor.read_of_lt (in2.address_lt (h2 ▸ hidx)) m
  have hwrite : ∀ idx ∈ indices out.shape.lengths, ∀ (m : Data V) (v : V),
      out.accessor.write m (out.shape.address idx) v = some (m.set out.accessor (out.shape.address idx) v) :=
    fun idx hidx m v => Accessor.write_of_lt (out.address_lt hidx) m v
  unfold binarySteps binaryAssign binaryValue
  by_cases hscalar1 : in1.accessor.size = 1 ∧ dflt1 = true
  · have hfirst : in1.accessor.read m 0 = some (m in1.accessor 0) := Accessor.read_of_lt (i := 0) (by omega) m
    have hls : ∀ k, ((![in2.shape, out.shape] : Fin 2 → Shape) k).lengths = out.shape.lengths := Fin.forall_fin_two.mpr ⟨h2, rfl⟩
    simp only [if_pos hscalar1]
    rw [hfirst, Option.elim_some, scalarSteps]
    refine trace_assign hls hrank _ _ (fun m' idx => f (m in1.accessor 0) (m' in2.accessor (in2.shape.address idx))) ?_
    intro idx hidx m'
    show (in2.accessor.read m' (in2.shape.address idx)).bind _ = _
    rw [hread2 idx hidx]
    exact hwrite idx hidx m' _
  · simp only [if_neg hscalar1]
    by_cases hscalar2 : in2.accessor.size = 1 ∧ dflt2 = true
    · have hfirst : in2.accessor.read m 0 = some (m in2.accessor 0) := Accessor.read_of_lt (i := 0) (by omega) m
      have hls : ∀ k, ((![in1.shape, out.shape] : Fin 2 → Shape) k).lengths = out.shape.lengths := Fin.forall_fin_two.mpr ⟨h1, rfl⟩
      simp only [if_pos hscalar2]
      rw [hfirst, Option.elim_some, scalarSteps]
      refine trace_assign hls hrank _ _ (fun m' idx => f (m' in1.accessor (in1.shape.address idx)) (m in2.accessor 0)) ?_
      intro idx hidx m'
      show (in1.accessor.read m' (in1.shape.address idx)).bind _ = _
      rw [hread1 idx hidx]
      exact hwrite idx hidx m' _
    · have hls : ∀ k, ((![in1.shape, in2.shape, out.shape] : Fin 3 → Shape) k).lengths = out.shape.lengths :=
        Fin.forall_fin_succ.mpr ⟨h1, Fin.forall_fin_two.mpr ⟨h2, rfl⟩⟩
      simp only [if_neg hscalar2]
      refine trace_assign hls hrank _ _
        (fun m' idx => f (m' in1.accessor (in1.shape.address idx)) (m' in2.accessor (in2.shape.address idx))) ?_
      intro idx hidx m'
      show (in1.accessor.read m' (in1.shape.address idx)).bind (fun x => (in2.accessor.read m' (in2.shape.address idx)).bind _) = _
      rw [hread1 idx hidx, Option.bind_some, hread2 idx hidx]
      exact hwrite idx hidx m' _

/-- The steps make the flush. -/
theorem exec_binarySteps : exec (binarySteps dflt1 dflt2 f in1 in2 out m) (some m) = binaryInnerFlush dflt1 dflt2 f in1 in2 out m := by
  unfold binarySteps binaryInnerFlush
  split
  · next hscalar =>
    have hfirst : in1.accessor.read m 0 = some (m in1.accessor 0) := Accessor.read_of_lt (i := 0) (by omega) m
    rw [hfirst]
    have hls : ∀ k, ((![in2.shape, out.shape] : Fin 2 → Shape) k).lengths = out.shape.lengths := Fin.forall_fin_two.mpr ⟨h2, rfl⟩
    exact exec_trace hls hrank m
  split
  · next hscalar =>
    have hfirst : in2.accessor.read m 0 = some (m in2.accessor 0) := Accessor.read_of_lt (i := 0) (by omega) m
    rw [hfirst]
    have hls : ∀ k, ((![in1.shape, out.shape] : Fin 2 → Shape) k).lengths = out.shape.lengths := Fin.forall_fin_two.mpr ⟨h1, rfl⟩
    exact exec_trace hls hrank m
  · have hls : ∀ k, ((![in1.shape, in2.shape, out.shape] : Fin 3 → Shape) k).lengths = out.shape.lengths :=
      Fin.forall_fin_succ.mpr ⟨h1, Fin.forall_fin_two.mpr ⟨h2, rfl⟩⟩
    exact exec_trace hls hrank m

end

theorem set_of_ne {m : Data V} {a b : Accessor} {i j : ℕ} {v : V} (h : b = a → j ≠ i) : m.set a i v b j = m b j := by
  rw [Data.set]
  obtain rfl | hne := eq_or_ne b a
  · rw [Function.update_self, Function.update_of_ne (h rfl)]
  · rw [Function.update_of_ne hne]

theorem set_comm {m : Data V} {a : Accessor} {i j : ℕ} {v w : V} (h : i ≠ j) : (m.set a j w).set a i v = (m.set a i v).set a j w := by
  simp only [Data.set, Function.update_self, Function.update_idem]
  rw [Function.update_comm h.symm]

/-! ## Operations -/

namespace BinaryCall
variable (c : BinaryCall V) (nblocks : ℕ)

/-- The index tuples of a block. -/
def rows (b : ℕ) : List (List ℕ) :=
  (indices (c.out.shape.lengths.set 0 (blockLength (c.out.shape.dim 0).length b nblocks))).map fun idx =>
    idx.modify 0 (· + blockOffset (c.out.shape.dim 0).length b nblocks)

/-- The step for an index tuple. -/
def assign (start : Data V) (idx : List ℕ) : Memory V → Memory V :=
  binaryAssign c.dflt1 c.dflt2 c.op c.in1.accessor c.in2.accessor c.out.accessor start (c.in1.shape.address idx) (c.in2.shape.address idx)
    (c.out.shape.address idx)

variable {c nblocks}

theorem Threaded.rank (h : c.Threaded nblocks) : 0 < c.out.shape.dimensions.length := by
  by_contra hrank
  have hnil : c.out.shape.dimensions = [] := List.length_eq_zero_iff.mp (by omega)
  have hone : (c.out.shape.dim 0).length = 1 := by rw [Shape.dim, hnil]; rfl
  have hle := h.2
  have hlt := h.1
  omega

theorem flatMap_rows (h : c.Threaded nblocks) : (List.range nblocks).flatMap (c.rows nblocks) = indices c.out.shape.lengths := by
  obtain ⟨d, ds, hdims⟩ := List.exists_cons_of_length_pos h.rank
  have hlengths : c.out.shape.lengths = d.length :: ds.map (·.length) := by rw [Shape.lengths, hdims]; rfl
  have hdim : (c.out.shape.dim 0).length = d.length := by rw [Shape.dim, hdims]; rfl
  unfold rows
  rw [hlengths, hdim]
  exact blocks_indices (by have := h.1; omega) _

section
variable {b b' : ℕ} {idx idx' : List ℕ} (h : c.Threaded nblocks)
include h

theorem rows_mem (hb : b < nblocks) (hidx : idx ∈ c.rows nblocks b) : idx ∈ indices c.out.shape.lengths := by
  rw [← flatMap_rows h, List.mem_flatMap]
  exact ⟨b, List.mem_range.mpr hb, hidx⟩

theorem rows_head (hidx : idx ∈ c.rows nblocks b) : ∃ i < blockLength (c.out.shape.dim 0).length b nblocks,
    idx.headD 0 = i + blockOffset (c.out.shape.dim 0).length b nblocks := by
  obtain ⟨part, hpart, rfl⟩ := List.mem_map.mp hidx
  obtain ⟨d, ds, hdims⟩ := List.exists_cons_of_length_pos h.rank
  rw [mem_indices, Shape.lengths, hdims, List.map_cons, List.set_cons_zero] at hpart
  obtain ⟨i, is, hi, -, rfl⟩ := List.forall₂_cons_right_iff.mp hpart
  exact ⟨i, hi, rfl⟩

theorem rows_ne (hne : b ≠ b') (hidx : idx ∈ c.rows nblocks b) (hidx' : idx' ∈ c.rows nblocks b') : idx ≠ idx' := by
  rintro rfl
  obtain ⟨i, hi, hhead⟩ := rows_head h hidx
  obtain ⟨i', hi', hhead'⟩ := rows_head h hidx'
  obtain hlt | hlt := Nat.lt_or_gt_of_ne hne
  · have := block_row_lt hi hlt i'
    omega
  · have := block_row_lt hi' hlt i
    omega

end

/-- The program of a thread. -/
theorem binaryOp_some (hfits : c.Fits) (h : c.Threaded nblocks) {b : ℕ} (hb : b < nblocks) (m : Data V) :
    binaryOp nblocks c b (some m) = (c.rows nblocks b).map (c.assign m) := by
  have hrank := h.rank
  have hrank1 : c.in1.shape.dimensions.length = c.out.shape.dimensions.length := by
    have hlen := congrArg List.length hfits.lengths1
    rwa [Shape.lengths, Shape.lengths, List.length_map, List.length_map] at hlen
  have hrank2 : c.in2.shape.dimensions.length = c.out.shape.dimensions.length := by
    have hlen := congrArg List.length hfits.lengths2
    rwa [Shape.lengths, Shape.lengths, List.length_map, List.length_map] at hlen
  have hdim1 : (c.in1.shape.dim 0).length = (c.out.shape.dim 0).length := by rw [Shape.length_dim, Shape.length_dim, hfits.lengths1]
  have hdim2 : (c.in2.shape.dim 0).length = (c.out.shape.dim 0).length := by rw [Shape.length_dim, Shape.length_dim, hfits.lengths2]
  obtain ⟨v1, hv1, hacc1, hsh1⟩ := @reshape_spec c.in1 b nblocks 0 (by omega) hb (by rw [hdim1]; exact h.2)
  obtain ⟨v2, hv2, hacc2, hsh2⟩ := @reshape_spec c.in2 b nblocks 0 (by omega) hb (by rw [hdim2]; exact h.2)
  obtain ⟨v, hv, hacc, hsh⟩ := @reshape_spec c.out b nblocks 0 hrank hb h.2
  rw [hdim1] at hsh1
  rw [hdim2] at hsh2
  have hlengths : v.shape.lengths = c.out.shape.lengths.set 0 (blockLength (c.out.shape.dim 0).length b nblocks) := by
    rw [hsh, lengths_cut]
  have hlengths1 : v1.shape.lengths = v.shape.lengths := by rw [hsh1, hlengths, lengths_cut, hfits.lengths1]
  have hlengths2 : v2.shape.lengths = v.shape.lengths := by rw [hsh2, hlengths, lengths_cut, hfits.lengths2]
  have hne : v.shape.lengths ≠ [] := by
    intro hnil
    have hlen := congrArg List.length (hlengths.symm.trans hnil)
    rw [List.length_set, Shape.lengths, List.length_map, List.length_nil] at hlen
    omega
  have hsteps : binaryOp nblocks c b (some m) = binarySteps c.dflt1 c.dflt2 c.op v1 v2 v m := by
    rw [binaryOp, Option.elim_some, hv1, hv2, hv]
    rfl
  rw [hsteps, binarySteps_eq _ _ _ hlengths1 hlengths2 hne, rows, List.map_map, ← hlengths]
  apply List.map_congr_left
  intro idx hidx
  have hlen : idx.length = c.out.shape.dimensions.length := by
    have hlen := (mem_indices.mp hidx).length_eq
    rwa [hlengths, List.length_set, Shape.lengths, List.length_map] at hlen
  rw [Function.comp_apply, assign, hacc1, hacc2, hacc, hsh1, hsh2, hsh, address_cut (by omega) _ _ (by omega),
    address_cut (by omega) _ _ (by omega), address_cut hrank _ _ hlen]

section
variable (hfits : c.Fits) {idx idx' : List ℕ} (hidx : idx ∈ indices c.out.shape.lengths) (hidx' : idx' ∈ indices c.out.shape.lengths)
  (hne : idx ≠ idx')
include hfits hidx hidx' hne

theorem address_ne : c.out.shape.address idx ≠ c.out.shape.address idx' := by
  have hnodup := hfits.nodup
  rw [c.out.shape.addresses_eq] at hnodup
  exact fun heq => hne (List.inj_on_of_nodup_map hnodup hidx hidx' heq)

/-- What is assigned to one element is not read for another one. -/
theorem value_set (start m : Data V) (v : V) :
    binaryValue c.dflt1 c.dflt2 c.op c.in1.accessor c.in2.accessor start (m.set c.out.accessor (c.out.shape.address idx') v)
      (c.in1.shape.address idx) (c.in2.shape.address idx) =
    binaryValue c.dflt1 c.dflt2 c.op c.in1.accessor c.in2.accessor start m (c.in1.shape.address idx) (c.in2.shape.address idx) := by
  have hread1 : m.set c.out.accessor (c.out.shape.address idx') v c.in1.accessor (c.in1.shape.address idx) =
      m c.in1.accessor (c.in1.shape.address idx) :=
    set_of_ne fun hacc haddr => hne (hfits.aligned1 hacc idx hidx idx' hidx' haddr)
  have hread2 : m.set c.out.accessor (c.out.shape.address idx') v c.in2.accessor (c.in2.shape.address idx) =
      m c.in2.accessor (c.in2.shape.address idx) :=
    set_of_ne fun hacc haddr => hne (hfits.aligned2 hacc idx hidx idx' hidx' haddr)
  rw [binaryValue, binaryValue, hread1, hread2]

theorem assign_comm (start : Data V) (m : Memory V) :
    c.assign start idx (c.assign start idx' m) = c.assign start idx' (c.assign start idx m) := by
  cases m with
  | none => rfl
  | some m =>
    have hforth := value_set hfits hidx hidx' hne start m
    have hback := value_set hfits hidx' hidx hne.symm start m
    unfold assign binaryAssign
    rw [Option.map_some, Option.map_some, Option.map_some, Option.map_some, hforth, hback,
      set_comm (address_ne hfits hidx hidx' hne)]

/-- The operand that is read once is not written: the output has two elements. -/
theorem assign_start (start : Data V) (v : V) :
    c.assign (start.set c.out.accessor (c.out.shape.address idx') v) idx = c.assign start idx := by
  have haddr := address_ne hfits hidx hidx' hne
  have hlt := c.out.address_lt hidx
  have hlt' := c.out.address_lt hidx'
  have hkept : ∀ a : Accessor, a.size = 1 → start.set c.out.accessor (c.out.shape.address idx') v a 0 = start a 0 := by
    intro a hsize
    apply set_of_ne
    rintro rfl -
    omega
  unfold assign binaryAssign binaryValue
  split
  · next hscalar => rw [hkept _ hscalar.1]
  split
  · next hscalar => rw [hkept _ hscalar.1]
  · rfl

end

/-- The threads do not meet. -/
theorem independent (hfits : c.Fits) (h : c.Threaded nblocks) : Independent nblocks (binaryOp nblocks c) where
  comm m₀ i hi j hj hne f hf g hg m := by
    cases m₀ with
    | none => cases hf
    | some start =>
      rw [binaryOp_some hfits h hi] at hf
      rw [binaryOp_some hfits h hj] at hg
      obtain ⟨idx, hidx, rfl⟩ := List.mem_map.mp hf
      obtain ⟨idx', hidx', rfl⟩ := List.mem_map.mp hg
      exact assign_comm hfits (rows_mem h hi hidx) (rows_mem h hj hidx') (rows_ne h hne hidx hidx') start m
  stable m₀ i hi j hj hne g hg m := by
    cases m₀ with
    | none => cases hg
    | some start =>
      rw [binaryOp_some hfits h hj] at hg
      obtain ⟨idx', hidx', rfl⟩ := List.mem_map.mp hg
      cases m with
      | none => rfl
      | some m =>
        show binaryOp nblocks c i (some (m.set c.out.accessor (c.out.shape.address idx') _)) = _
        rw [binaryOp_some hfits h hi, binaryOp_some hfits h hi]
        apply List.map_congr_left
        intro idx hidx
        exact assign_start hfits (rows_mem h hi hidx) (rows_mem h hj hidx') (rows_ne h hne hidx hidx') m _

theorem Threaded.lengths_ne (h : c.Threaded nblocks) : c.out.shape.lengths ≠ [] := by
  intro hnil
  have hrank := h.rank
  have hlen := congrArg List.length hnil
  rw [Shape.lengths, List.length_map, List.length_nil] at hlen
  omega

theorem flush_eq_some (hfits : c.Fits) (h : c.Threaded nblocks) (m : Data V) : ∃ m', c.flush m = some m' := by
  obtain ⟨value, hflush, -, -⟩ := binaryInnerFlush_cases c.dflt1 c.dflt2 c.op hfits.lengths1 hfits.lengths2 h.lengths_ne m
  exact ⟨_, hflush⟩

/-- The blocks make the operation. -/
theorem sequential_flush (hfits : c.Fits) (h : c.Threaded nblocks) (m : Data V) :
    sequential nblocks (binaryOp nblocks c) (some m) = c.flush m := by
  have hne := h.lengths_ne
  have hprograms : inOrder (fun b => binaryOp nblocks c b (some m)) nblocks (some m) =
      inOrder (fun b => (c.rows nblocks b).map (c.assign m)) nblocks (some m) :=
    inOrder_congr (fun b hb => binaryOp_some hfits h hb m) _
  rw [sequential_eq (independent hfits h), hprograms, inOrder_eq_exec, ← List.map_flatMap, flatMap_rows h, flush,
    ← exec_binarySteps c.dflt1 c.dflt2 c.op hfits.lengths1 hfits.lengths2 hne,
    binarySteps_eq _ _ _ hfits.lengths1 hfits.lengths2 hne]
  rfl

end BinaryCall

theorem after_calls {nblocks : ℕ} {calls : List (BinaryCall V)} (hcalls : ∀ c ∈ calls, c.Fits ∧ c.Threaded nblocks) (m : Data V) :
    after nblocks (some m) (calls.map (binaryOp nblocks)) = calls.foldlM (fun m c => c.flush m) m ∧
      (after nblocks (some m) (calls.map (binaryOp nblocks))).isSome := by
  induction calls generalizing m with
  | nil => exact ⟨rfl, rfl⟩
  | cons c calls ih =>
    rw [List.forall_mem_cons] at hcalls
    obtain ⟨m', hflush⟩ := BinaryCall.flush_eq_some hcalls.1.1 hcalls.1.2 m
    rw [List.map_cons, after, List.foldl_cons, BinaryCall.sequential_flush hcalls.1.1 hcalls.1.2, hflush, List.foldlM_cons, hflush]
    exact ih hcalls.2 m'

/-- Operations that threads do in blocks are what they are without threads, one after the other, however the threads are
scheduled; and none of them throws. -/
theorem binaryOp_threads (nblocks : ℕ) (calls : List (BinaryCall V)) (m : Data V) (acts : List (Act (Memory V)))
    (s : Runner (Memory V)) (hcalls : ∀ c ∈ calls, c.Fits ∧ c.Threaded nblocks)
    (hjobs : acts.flatMap Act.jobs = calls.map (binaryOp nblocks)) (hrun : acts.foldlM (step nblocks) (Runner.new (some m)) = some s)
    (hidle : s.caller = .idle) : s.mem = calls.foldlM (fun m c => c.flush m) m ∧ s.mem.isSome := by
  have hind : ∀ job ∈ acts.flatMap Act.jobs, Independent nblocks job := by
    intro job hjob
    rw [hjobs] at hjob
    obtain ⟨c, hc, rfl⟩ := List.mem_map.mp hjob
    exact BinaryCall.independent (hcalls c hc).1 (hcalls c hc).2
  rw [mem_of_idle hind hrun hidle, hjobs]
  exact after_calls hcalls m

/-- Four elements, to each of which a scalar is added in place. -/
def addScalar : BinaryCall ℕ where
  dflt1 := true
  dflt2 := true
  op := (· + ·)
  in1 := ⟨⟨0, 4⟩, ⟨0, [⟨4, 1⟩]⟩, by decide, by decide⟩
  in2 := ⟨⟨1, 1⟩, ⟨0, [⟨4, 0⟩]⟩, by decide, by decide⟩
  out := ⟨⟨0, 4⟩, ⟨0, [⟨4, 1⟩]⟩, by decide, by decide⟩

theorem fits_addScalar : addScalar.Fits where
  lengths1 := rfl
  lengths2 := rfl
  nodup := by decide
  aligned1 := fun _ => by decide
  aligned2 := fun h => by cases h

/-- The second thread begins while the first one is at work. -/
def addScalarActs : List (Act (Memory ℕ)) :=
  [.call (binaryOp 2 addScalar), .caller, .worker 0, .worker 1, .worker 0, .worker 0, .worker 0, .worker 1, .caller, .worker 1, .worker 1,
    .worker 1, .worker 0, .worker 0, .worker 1, .worker 0, .worker 1, .caller, .worker 0, .caller, .caller]

theorem binaryOp_threads_addScalar : ∃ s, addScalarActs.foldlM (step 2) (Runner.new (some fun a i => a.id + i)) = some s ∧ s.caller = .idle ∧
    s.mem = [addScalar].foldlM (fun m c => c.flush m) (fun a i => a.id + i) ∧ s.mem.isSome := by
  have hcalls : ∀ c ∈ [addScalar], c.Fits ∧ c.Threaded 2 := by
    intro c hc
    obtain rfl := List.mem_singleton.mp hc
    exact ⟨fits_addScalar, Nat.lt_succ_self 1, Nat.le_add_left 2 2⟩
  exact ⟨_, rfl, rfl, binaryOp_threads 2 [addScalar] (fun a i => a.id + i) addScalarActs _ hcalls rfl rfl rfl⟩

end Bohrium.NumCil.Threads
