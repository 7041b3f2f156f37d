import Bohrium.NumCil.Reduction
import Bohrium.NumCil.Threads

/-! # A reduction in blocks

`Threads.Reduce` of one dimension to one element. Each thread reduces a block into its place of a temporary array, and
the caller combines the results. -/
namespace Bohrium.NumCil.Threads
open Strided Walk Jobs
set_option autoImplicit false

variable {V : Type}

/-- The action that `Reduce` gives to the runner. A thread writes once, what it computed for its block. -/
def reduceBlock (nblocks : ℕ) (dflt : Bool) (f : V → V → V) (in1 : NdArray) (tmpout : Accessor) : Job (Memory V) := fun block m =>
  m.elim [] fun _ => (do
    let v1 ← reshape in1 block nblocks 0
    let v2 ← NdArray.make tmpout ⟨block, plainDimensions [1]⟩
    pure [Option.map (reduceFlush dflt f 0 v1 v2)]).getD [fun _ => none]

/-- The final reduction on the thread results, `none` if it throws. -/
def combineBlocks (nblocks : ℕ) (f : V → V → V) (tmpout : Accessor) (out : NdArray) (m : Data V) : Option (Data V) :=
  let r := (List.range' 1 (nblocks - 1)).foldl (fun r i => f r (m tmpout i)) (m tmpout 0)
  (out.valueIndex [out.shape.offset]).bind fun ix => out.accessor.write m ix r

/-- The condition for this branch of `Reduce`. -/
def ScalarReduction (nblocks : ℕ) (in1 : NdArray) : Prop :=
  1 < nblocks ∧ nblocks * 2 ≤ (in1.shape.dim 0).length ∧ in1.shape.dimensions.length = 1

/-! ## Folds in blocks -/

theorem foldFirst_succ (f : V → V → V) {n : ℕ} (hn : 0 < n) (x : ℕ → V) : foldFirst f (n + 1) x = f (foldFirst f n x) (x n) := by
  obtain ⟨k, rfl⟩ := Nat.exists_eq_succ_of_ne_zero hn.ne'
  rw [foldFirst, Nat.add_sub_cancel, Nat.succ_eq_add_one, List.range'_1_concat, List.foldl_append, foldFirst, Nat.add_comm 1 k]
  rfl

theorem foldFirst_congr (f : V → V → V) {n : ℕ} (hn : 0 < n) {x y : ℕ → V} (h : ∀ j < n, x j = y j) : foldFirst f n x = foldFirst f n y := by
  induction n with
  | zero => exact absurd hn (lt_irrefl 0)
  | succ n ih =>
    obtain rfl | hpos := Nat.eq_zero_or_pos n
    · exact h 0 Nat.one_pos
    · rw [foldFirst_succ f hpos, foldFirst_succ f hpos, ih hpos fun j hj => h j (Nat.lt_succ_of_lt hj), h n (Nat.lt_succ_self n)]

section
variable {f : V → V → V} (hassoc : ∀ x y z, f (f x y) z = f x (f y z))
include hassoc

theorem foldFirst_add {p q : ℕ} (hp : 0 < p) (hq : 0 < q) (x : ℕ → V) :
    foldFirst f (p + q) x = f (foldFirst f p x) (foldFirst f q fun j => x (p + j)) := by
  induction q with
  | zero => exact absurd hq (lt_irrefl 0)
  | succ q ih =>
    rw [← Nat.add_assoc, foldFirst_succ f (Nat.add_pos_left hp q)]
    obtain rfl | hpos := Nat.eq_zero_or_pos q
    · rfl
    · rw [ih hpos, hassoc, foldFirst_succ f hpos]

/-- The fold of the blocks' folds. -/
theorem foldFirst_blocks {length nblocks : ℕ} (hblocks : 0 < nblocks) (hle : nblocks ≤ length) (x : ℕ → V) :
    foldFirst f nblocks (fun b => foldFirst f (blockLength length b nblocks) fun j => x (blockOffset length b nblocks + j)) =
      foldFirst f length x := by
  have hpos := Nat.div_pos hle hblocks
  have hupto : ∀ k, foldFirst f (k + 1)
      (fun b => foldFirst f (blockLength length b nblocks) fun j => x (blockOffset length b nblocks + j)) =
        foldFirst f (length / nblocks * (k + 1) + length % nblocks) x := by
    intro k
    induction k with
    | zero =>
      have hfirst : length / nblocks * (0 + 1) + length % nblocks = blockLength length 0 nblocks := by simp [blockLength]
      rw [hfirst]
      refine foldFirst_congr f (blockLength_pos hblocks hle) fun j _ => ?_
      rw [blockOffset, if_pos rfl, Nat.zero_add]
    | succ k ih =>
      have hsome : 0 < length / nblocks * (k + 1) + length % nblocks := Nat.add_pos_left (Nat.mul_pos hpos (Nat.succ_pos k)) _
      rw [foldFirst_succ f (Nat.succ_pos k), ih, blockLength_succ, blockOffset_succ, block_end, foldFirst_add hassoc hsome hpos]
  obtain ⟨k, rfl⟩ := Nat.exists_eq_succ_of_ne_zero hblocks.ne'
  rw [hupto k, Nat.mul_comm, Nat.div_add_mod]

end

/-! ## One block -/

/-- What a reduction of one dimension computes. -/
def lineValue (f : V → V → V) (x : NdArray) (first length : ℕ) (m : Data V) : V :=
  foldFirst f length fun j => m x.accessor (x.shape.offset + (first + j) * (x.shape.dim 0).stride)

theorem reduceFlush_one {in1 out : NdArray} {d : ShapeDimension} (hd : in1.shape.dimensions = [d]) (hstride : d.stride ≠ 0)
    (dflt : Bool) (f : V → V → V) (m : Data V) :
    reduceFlush dflt f 0 in1 out m = m.set out.accessor out.shape.offset (lineValue f in1 0 d.length m) := by
  have hcase : reduceCase in1.shape 0 = .line d := by simp [reduceCase, hd]
  have hdim : in1.shape.dim 0 = d := by rw [Shape.dim, hd]; rfl
  simp only [reduceFlush, hcase, loop, List.foldl_cons, List.foldl_nil, strideLoop, if_neg hstride]
  rw [lineValue, foldFirst, hdim]
  simp only [Nat.zero_add, Nat.zero_mul, Nat.add_zero]

section
variable {nblocks : ℕ} {in1 : NdArray} {tmpout : Accessor} (hin : ScalarReduction nblocks in1) (hstride : (in1.shape.dim 0).stride ≠ 0)
  (htmp : tmpout.size = nblocks) (dflt : Bool) (f : V → V → V)
include hin hstride htmp

/-- The step of a block. -/
def blockStep (nblocks : ℕ) (f : V → V → V) (in1 : NdArray) (tmpout : Accessor) (b : ℕ) : Memory V → Memory V :=
  Option.map fun m => m.set tmpout b
    (lineValue f in1 (blockOffset (in1.shape.dim 0).length b nblocks) (blockLength (in1.shape.dim 0).length b nblocks) m)

theorem reduceBlock_some {b : ℕ} (hb : b < nblocks) (m : Data V) :
    reduceBlock nblocks dflt f in1 tmpout b (some m) = [blockStep nblocks f in1 tmpout b] := by
  obtain ⟨hblocks, hlarge, hrank⟩ := hin
  obtain ⟨d, hd⟩ := List.length_eq_one_iff.mp hrank
  have hdim : in1.shape.dim 0 = d := by rw [Shape.dim, hd]; rfl
  obtain ⟨v1, hv1, hacc, hsh⟩ := @reshape_spec in1 b nblocks 0 (by omega) hb (by omega)
  have hfit : (⟨b, plainDimensions [1]⟩ : Shape).space ≤ tmpout.size := by
    have hspace : (⟨b, plainDimensions [1]⟩ : Shape).space = b + 1 := by
      show 1 + ((1 - 1) * 1 + 0) + b = b + 1
      omega
    rw [htmp, hspace]
    exact hb
  obtain ⟨v2, hv2, hv2acc, hv2sh⟩ : ∃ y, NdArray.make tmpout ⟨b, plainDimensions [1]⟩ = some y ∧ y.accessor = tmpout ∧
      y.shape = ⟨b, plainDimensions [1]⟩ := by
    have hpos : ∀ d ∈ (⟨b, plainDimensions [1]⟩ : Shape).dimensions, 0 < d.length := by
      intro d hd
      obtain rfl := List.mem_singleton.mp hd
      exact Nat.one_pos
    rw [NdArray.make, dif_pos ⟨hpos, hfit⟩]
    exact ⟨_, rfl, rfl, rfl⟩
  have hv1dims : v1.shape.dimensions = [⟨blockLength d.length b nblocks, d.stride⟩] := by
    rw [hsh, Shape.cut, hdim, hd]
    rfl
  have hv1dim : v1.shape.dim 0 = ⟨blockLength d.length b nblocks, d.stride⟩ := by rw [Shape.dim, hv1dims]; rfl
  have hv1off : v1.shape.offset = in1.shape.offset + blockOffset d.length b nblocks * d.stride := by
    rw [hsh, Shape.cut, hdim]
  rw [reduceBlock, Option.elim_some, hv1, hv2]
  show [Option.map (reduceFlush dflt f 0 v1 v2)] = _
  rw [blockStep, hdim]
  congr 2
  funext m
  rw [reduceFlush_one hv1dims (hdim ▸ hstride), hv2acc, hv2sh, lineValue, lineValue, hacc, hv1off, hv1dim, hdim]
  congr 2
  funext j
  rw [Nat.zero_add, Nat.add_mul, Nat.add_assoc]

end

/-! ## The runner and the caller -/

theorem lineValue_set (f : V → V → V) {x : NdArray} {a : Accessor} (hne : x.accessor ≠ a) (first length : ℕ) (m : Data V) (i : ℕ) (v : V) :
    lineValue f x first length (m.set a i v) = lineValue f x first length m := by
  unfold lineValue
  congr 1
  funext j
  exact set_of_ne fun h => absurd h hne

section
variable {nblocks : ℕ} {in1 : NdArray} {tmpout : Accessor} {f : V → V → V} (hin1 : in1.accessor ≠ tmpout)
include hin1

theorem blockStep_comm {i j : ℕ} (hij : i ≠ j) (m : Memory V) :
    blockStep nblocks f in1 tmpout i (blockStep nblocks f in1 tmpout j m) =
      blockStep nblocks f in1 tmpout j (blockStep nblocks f in1 tmpout i m) := by
  cases m with
  | none => rfl
  | some m =>
    unfold blockStep
    rw [Option.map_some, Option.map_some, Option.map_some, Option.map_some, lineValue_set f hin1, lineValue_set f hin1, set_comm hij]

theorem blocks_done (n : ℕ) (m : Data V) : ∃ m', inOrder (fun b => [blockStep nblocks f in1 tmpout b]) n (some m) = some m' ∧
    (∀ b < n, m' tmpout b = lineValue f in1 (blockOffset (in1.shape.dim 0).length b nblocks)
      (blockLength (in1.shape.dim 0).length b nblocks) m) ∧ ∀ a, a ≠ tmpout → m' a = m a := by
  induction n with
  | zero => exact ⟨m, rfl, fun b hb => absurd hb (Nat.not_lt_zero b), fun _ _ => rfl⟩
  | succ n ih =>
    obtain ⟨m', hm', hdone, hkept⟩ := ih
    have hvalue : ∀ first length, lineValue f in1 first length m' = lineValue f in1 first length m := by
      intro first length
      rw [lineValue, lineValue, hkept _ hin1]
    refine ⟨m'.set tmpout n (lineValue f in1 (blockOffset (in1.shape.dim 0).length n nblocks)
      (blockLength (in1.shape.dim 0).length n nblocks) m'), ?_, fun b hb => ?_, fun a ha => ?_⟩
    · rw [inOrder_succ, hm']
      rfl
    · obtain hlt | rfl := Nat.lt_succ_iff_lt_or_eq.mp hb
      · rw [set_of_ne fun _ => hlt.ne, hdone b hlt]
      · rw [Data.set, Function.update_self, Function.update_self, hvalue]
    · rw [Data.set, Function.update_of_ne ha, hkept a ha]

variable (hin : ScalarReduction nblocks in1) (hstride : (in1.shape.dim 0).stride ≠ 0) (htmp : tmpout.size = nblocks) (dflt : Bool)
include hin hstride htmp

theorem independent_reduceBlock : Independent nblocks (reduceBlock nblocks dflt f in1 tmpout) where
  comm m₀ i hi j hj hne g hg h hh m := by
    cases m₀ with
    | none => cases hg
    | some start =>
      rw [reduceBlock_some hin hstride htmp dflt f hi] at hg
      rw [reduceBlock_some hin hstride htmp dflt f hj] at hh
      obtain rfl := List.mem_singleton.mp hg
      obtain rfl := List.mem_singleton.mp hh
      exact blockStep_comm hin1 hne m
  stable m₀ i hi j hj hne g hg m := by
    cases m₀ with
    | none => cases hg
    | some start =>
      rw [reduceBlock_some hin hstride htmp dflt f hj] at hg
      obtain rfl := List.mem_singleton.mp hg
      cases m with
      | none => rfl
      | some m =>
        show reduceBlock nblocks dflt f in1 tmpout i (some (m.set tmpout j _)) = _
        rw [reduceBlock_some hin hstride htmp dflt f hi, reduceBlock_some hin hstride htmp dflt f hi]

theorem sequential_reduceBlock (m : Data V) : ∃ m', sequential nblocks (reduceBlock nblocks dflt f in1 tmpout) (some m) = some m' ∧
    (∀ b < nblocks, m' tmpout b = lineValue f in1 (blockOffset (in1.shape.dim 0).length b nblocks)
      (blockLength (in1.shape.dim 0).length b nblocks) m) ∧ ∀ a, a ≠ tmpout → m' a = m a := by
  have hprograms : inOrder (fun b => reduceBlock nblocks dflt f in1 tmpout b (some m)) nblocks (some m) =
      inOrder (fun b => [blockStep nblocks f in1 tmpout b]) nblocks (some m) :=
    inOrder_congr (fun b hb => reduceBlock_some hin hstride htmp dflt f hb m) _
  rw [sequential_eq (independent_reduceBlock hin1 hin hstride htmp dflt), hprograms]
  exact blocks_done hin1 nblocks m

end

theorem valueIndex_offset {out : NdArray} (hout : out.shape.lengths = [1]) :
    out.valueIndex [out.shape.offset] = if out.shape.offset = 0 then some 0 else none := by
  obtain ⟨d, hd, hlen⟩ := List.map_eq_singleton_iff.mp hout
  rw [NdArray.valueIndex]
  split
  · next h =>
    have hzero : out.shape.offset = 0 := List.singleton_inj.mp h
    rw [if_pos hzero, hzero]
  · next h =>
    have hpos : out.shape.offset ≠ 0 := fun h0 => h (by rw [h0])
    rw [if_neg hpos, Shape.at?, if_neg]
    rintro ⟨-, hall⟩
    have hlt : out.shape.offset < d.length := hall (out.shape.offset, d) (by rw [hd]; exact List.mem_singleton_self _)
    omega

/-- `Reduce` of one dimension in blocks, with any schedule of the threads, is the reduction without threads if the output
stands at the beginning of its array; else it throws, as the offset is taken for an index. -/
theorem reduce_threads (nblocks : ℕ) (dflt : Bool) (f : V → V → V) (in1 out : NdArray) (tmpout : Accessor) (m : Data V)
    (acts : List (Act (Memory V))) (s : Runner (Memory V)) (hassoc : ∀ x y z, f (f x y) z = f x (f y z)) (hin : ScalarReduction nblocks in1)
    (hstride : (in1.shape.dim 0).stride ≠ 0) (hout : out.shape.lengths = [1]) (htmp : tmpout.size = nblocks)
    (hin1 : in1.accessor ≠ tmpout)
    (hjobs : acts.flatMap Act.jobs = [reduceBlock nblocks dflt f in1 tmpout])
    (hrun : acts.foldlM (step nblocks) (Runner.new (some m)) = some s) (hidle : s.caller = .idle) :
    (out.shape.offset = 0 → ∃ m', s.mem.bind (combineBlocks nblocks f tmpout out) = some m' ∧
      ∀ a, a ≠ tmpout → m' a = reduceFlush dflt f 0 in1 out m a) ∧
    (out.shape.offset ≠ 0 → s.mem.bind (combineBlocks nblocks f tmpout out) = none) := by
  have hind : ∀ job ∈ acts.flatMap Act.jobs, Independent nblocks job := by
    intro job hjob
    rw [hjobs] at hjob
    obtain rfl := List.mem_singleton.mp hjob
    exact independent_reduceBlock hin1 hin hstride htmp dflt
  obtain ⟨m₁, hm₁, hdone, hkept⟩ := sequential_reduceBlock (f := f) hin1 hin hstride htmp dflt m
  have hmem : s.mem = some m₁ := by
    rw [mem_of_idle hind hrun hidle, hjobs, ← hm₁]
    rfl
  rw [hmem, Option.bind_some, combineBlocks, valueIndex_offset hout]
  constructor
  · intro hoff
    obtain ⟨d, hd⟩ := List.length_eq_one_iff.mp hin.2.2
    have hdim : in1.shape.dim 0 = d := by rw [Shape.dim, hd]; rfl
    have hblocks : 0 < nblocks := by have := hin.1; omega
    have hresult : (List.range' 1 (nblocks - 1)).foldl (fun r i => f r (m₁ tmpout i)) (m₁ tmpout 0) = lineValue f in1 0 d.length m := by
      have hfold := foldFirst_congr f hblocks hdone
      rw [foldFirst] at hfold
      have hle : nblocks ≤ (in1.shape.dim 0).length := by have := hin.2.1; omega
      have hwhole := foldFirst_blocks hassoc hblocks hle fun k => m in1.accessor (in1.shape.offset + k * (in1.shape.dim 0).stride)
      rw [hfold]
      refine hwhole.trans ?_
      rw [lineValue, hdim]
      simp only [Nat.zero_add]
    have hfit : 0 < out.accessor.size := by
      have hspace := out.fits
      rw [Shape.space, spaceRequired_eq] at hspace
      omega
    rw [if_pos hoff, Option.bind_some, Accessor.write_of_lt hfit, hresult]
    refine ⟨_, rfl, fun a ha => ?_⟩
    rw [reduceFlush_one hd (hdim ▸ hstride), hoff, Data.set, Data.set]
    obtain rfl | hne := eq_or_ne a out.accessor
    · rw [Function.update_self, Function.update_self, hkept _ ha]
    · rw [Function.update_of_ne hne, Function.update_of_ne hne, hkept a ha]
  · intro hoff
    rw [if_neg hoff, Option.bind_none]

/-- Every second of eight numbers, to be added up by two threads. -/
def evensView : NdArray := ⟨⟨0, 8⟩, ⟨0, [⟨4, 2⟩]⟩, by decide, by decide⟩

/-- The second thread is the faster one. -/
def evensActs : List (Act (Memory ℕ)) :=
  [.call (reduceBlock 2 true (· + ·) evensView ⟨2, 2⟩), .worker 1, .worker 0, .caller, .worker 1, .worker 1, .worker 1, .worker 1, .worker 1,
    .worker 0, .worker 0, .worker 0, .worker 0, .worker 0, .caller, .caller, .worker 1, .worker 1, .worker 0, .worker 0, .caller, .caller]

theorem reduce_threads_evens : ∃ s, evensActs.foldlM (step 2) (Runner.new (some fun _ i => i)) = some s ∧ s.caller = .idle ∧
    ∃ m', s.mem.bind (combineBlocks 2 (· + ·) ⟨2, 2⟩ singleTarget) = some m' ∧
      ∀ a, a ≠ ⟨2, 2⟩ → m' a = reduceFlush true (· + ·) 0 evensView singleTarget (fun _ i => i) a := by
  have hspec := reduce_threads 2 true (· + ·) evensView singleTarget ⟨2, 2⟩ (fun _ i => i) evensActs _ Nat.add_assoc
    ⟨by decide, by decide, rfl⟩ (by decide) rfl rfl (by decide) rfl rfl rfl
  exact ⟨_, rfl, rfl, hspec.1 rfl⟩

end Bohrium.NumCil.Threads
