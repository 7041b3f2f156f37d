import Bohrium.Dag.Legal

/-! # The fuse cache

`BatchHash` and `FuseCache` (`core/bh_fuse_cache.cpp`, `bh_fuse_cache.h`). The hasher is taken to be
without collisions, so the byte string it is fed is the key itself. The string tells views apart but
not how they lie in their base arrays; a cached partition is legal for another batch with the same
string if that batch has no further dependencies and no further pairs that may not be fused. -/
namespace Bohrium
open Reorder
set_option autoImplicit false

/-! ## The byte string of a batch -/

/-- `BH_MAX_OPCODE_ID`, behind which the extension methods are numbered. -/
def bhMaxOpcodeId : ℕ := 78

/-- The number of an opcode. -/
def opcodeId : BhOpcode → ℕ
  | .add => 1 | .subtract => 2 | .multiply => 3 | .divide => 4 | .power => 5 | .absolute => 6
  | .greater => 7 | .greaterEqual => 8 | .less => 9 | .lessEqual => 10 | .equal => 11
  | .notEqual => 12 | .logicalAnd => 13 | .logicalOr => 14 | .logicalXor => 15
  | .logicalNot => 16 | .maximum => 17 | .minimum => 18 | .bitwiseAnd => 19 | .bitwiseOr => 20
  | .bitwiseXor => 21 | .invert => 22 | .leftShift => 23 | .rightShift => 24 | .cos => 25
  | .sin => 26 | .tan => 27 | .cosh => 28 | .sinh => 29 | .tanh => 30 | .arcsin => 31
  | .arccos => 32 | .arctan => 33 | .arcsinh => 34 | .arccosh => 35 | .arctanh => 36
  | .arctan2 => 37 | .exp => 38 | .exp2 => 39 | .expm1 => 40 | .log => 41 | .log2 => 42
  | .log10 => 43 | .log1p => 44 | .sqrt => 45 | .ceil => 46 | .trunc => 47 | .floor => 48
  | .rint => 49 | .mod => 50 | .isnan => 51 | .isinf => 52 | .identity => 53 | .discard => 54
  | .free => 55 | .sync => 56 | .none => 57 | .addReduce => 59 | .multiplyReduce => 60
  | .minimumReduce => 61 | .maximumReduce => 62 | .logicalAndReduce => 63
  | .bitwiseAndReduce => 64 | .logicalOrReduce => 65 | .bitwiseOrReduce => 66
  | .logicalXorReduce => 67 | .bitwiseXorReduce => 68 | .random => 69 | .range => 70
  | .real => 71 | .imag => 72 | .addAccumulate => 73 | .multiplyAccumulate => 74 | .sign => 75
  | .matmul => 76 | .gather => 77 | .scatter => 78
  | .ext id => bhMaxOpcodeId + 1 + id

/-- A 64-bit field in memory order. -/
def word (n : ℤ) : List UInt8 :=
  (List.range 8).map fun i => UInt8.ofNat ((n % 2 ^ 64).toNat / 256 ^ i % 256)

/-- `inst_sep`. -/
def instSep : List UInt8 := word (-1)

/-- `op_sep`. -/
def opSep : List UInt8 := word (-2)

structure BatchHash where
  views : Seqset BhView := {}
  shapes : Seqset (List ℕ) := {}
  data : List UInt8 := []
  deriving DecidableEq

namespace BatchHash

def write (b : BatchHash) (bytes : List UInt8) : BatchHash := { b with data := b.data ++ bytes }

/-- `<operant-id>`. -/
def writeViewId (b : BatchHash) (v : BhView) : BatchHash :=
  let (views, id, _) := b.views.insert v
  { b with views := views, data := b.data ++ word id }

/-- `<shape-id>`. -/
def writeShapeId (b : BatchHash) (v : BhView) : BatchHash :=
  let (shapes, id, _) := b.shapes.insert v.shape
  { b with shapes := shapes, data := b.data ++ word id }

/-- `(<operant-id>)` for each operand that is no constant. -/
def writeOperandIds (instr : BhInstruction) (b : BatchHash) : BatchHash :=
  instr.operands.foldl (fun b v => if bhIsConstant v then b else b.writeViewId v) b

/-- `(<ndim> <sweep-dim>)` of a sweep. -/
def writeSweep (instr : BhInstruction) (b : BatchHash) : BatchHash :=
  if bhOpcodeIsSweep instr.opcode then
    b.write (word instr.operand1.ndim ++ word instr.constant.int64)
  else b

/-- `<is_scalar>`. -/
def writeScalar (instr : BhInstruction) (b : BatchHash) : BatchHash :=
  b.write [if scalarKernel instr then 1 else 0]

def hashOpcodeOpidShapeidSweepdim (instr : BhInstruction) (b : BatchHash) : BatchHash :=
  let b := b.write (word (opcodeId instr.opcode))
  let b := instr.operands.foldl (fun b v =>
    if bhIsConstant v then b
    else ((((b.writeViewId v).write (word v.ndim)).writeShapeId v).write opSep)) b
  let b := if bhOpcodeIsSweep instr.opcode then b.write (word instr.constant.int64) else b
  b.write instSep

def hashOpidSweepdim (instr : BhInstruction) (b : BatchHash) : BatchHash :=
  (writeSweep instr ((writeOperandIds instr b).write opSep)).write instSep

def hashScalarOpidSweepdim (instr : BhInstruction) (b : BatchHash) : BatchHash :=
  hashOpidSweepdim instr (writeScalar instr b)

def hashScalarShapeidOpidSweepdim (instr : BhInstruction) (b : BatchHash) : BatchHash :=
  hashOpidSweepdim instr ((writeScalar instr b).writeShapeId (sweptOperand instr))

def hashOpid (instr : BhInstruction) (b : BatchHash) : BatchHash :=
  (writeOperandIds instr b).write instSep

end BatchHash

open BatchHash in
def getInstrHash : FuseModel → BhInstruction → BatchHash → BatchHash
  | .broadest => hashOpid
  | .noXsweep => hashOpidSweepdim
  | .noXsweepScalarSeperate => hashScalarOpidSweepdim
  | .noXsweepScalarSeperateShapeMatch => hashScalarShapeidOpidSweepdim
  | .sameShape | .sameShapeRange | .sameShapeRandom | .sameShapeRangeRandom
  | .sameShapeGenerate1dreduce => hashOpcodeOpidShapeidSweepdim

/-- What the constructor of `BatchHash` feeds to the hasher. -/
def batchHash (model : FuseModel) (l : List BhInstruction) : List UInt8 :=
  (l.foldl (fun b instr => getInstrHash model instr b) {}).data

/-! ## The cache -/

structure FuseCache where
  cache : List (List UInt8 × List (List ℕ)) := []
  deactivated : Bool := false

namespace FuseCache

def insert (c : FuseCache) (batch : List UInt8) (kernelList : List BhIrKernel) : FuseCache :=
  { c with cache := (batch, kernelList.map BhIrKernel.instrIndexes) :: c.cache.filter (·.1 ≠ batch) }

/-- `InstrIndexesList::fill_kernel_list`. -/
def fillKernels (l : List BhInstruction) (instrIndexesList : List (List ℕ)) : List BhIrKernel :=
  instrIndexesList.map fun is => is.foldl (BhIrKernel.addInstr l) {}

def lookup (c : FuseCache) (batch : List UInt8) (l : List BhInstruction) : Option (List BhIrKernel) :=
  if c.deactivated then none else (c.cache.lookup batch).map (fillKernels l)

/-- A hit replays the partition that was inserted last under the same string. -/
theorem lookup_insert (c : FuseCache) (batch : List UInt8) (ks : List BhIrKernel) (l : List BhInstruction) :
    (c.insert batch ks).lookup batch l = if c.deactivated then none
      else some (fillKernels l (ks.map BhIrKernel.instrIndexes)) := by
  simp [lookup, insert]

theorem instrIndexes_fillKernels (l : List BhInstruction) (ks : List BhIrKernel) :
    (fillKernels l (ks.map BhIrKernel.instrIndexes)).map BhIrKernel.instrIndexes =
      ks.map BhIrKernel.instrIndexes := by
  simp only [fillKernels, List.map_map]
  refine List.map_congr_left fun k _ => ?_
  exact BhIrKernel.instrIndexes_foldl_addInstr l _ {}

end FuseCache

/-! ## Replaying a partition on another batch -/

/-- The batch `Q` has no further dependencies than `P`, and no further pairs that may not be fused. -/
structure Agrees (model : FuseModel) (P Q : List BhInstruction) : Prop where
  length : P.length = Q.length
  dependency : ∀ i < Q.length, ∀ j < Q.length, dependencyAt Q i j = true → dependencyAt P i j = true
  fusible : ∀ i < Q.length, ∀ j < Q.length, checkFusible model (instrAt P i) (instrAt P j) = true →
    checkFusible model (instrAt Q i) (instrAt Q j) = true

/-- A hit in the cache is legal for a batch that agrees with the one the partition was made for. -/
theorem lookup_legal (boost : Boost) (model : FuseModel) (fuser : Fuser) (P Q : List BhInstruction)
    (c : FuseCache) (hhash : batchHash model P = batchHash model Q) (hag : Agrees model P Q)
    (hsym : FusibleSymm model P) (hst : fuser.onGraph = true → StretchesAccepted model P) :
    ∃ ks, doFusion boost model P fuser = some ks ∧ ∃ ks',
      (c.insert (batchHash model P) ks).lookup (batchHash model Q) Q =
        (if c.deactivated then none else some ks') ∧
      (∀ k ∈ ks', ∀ i ∈ k.instrIndexes, i < Q.length) ∧
      (∀ k ∈ ks', k.fusible model Q = true) ∧
      ∀ i j, i < j → dependencyAt Q i j = true → [i, j].Sublist (ks'.flatMap BhIrKernel.instrIndexes) := by
  obtain ⟨ks, hks, hfus⟩ := (doFusion_fusible_iff boost model P fuser hsym).mpr hst
  obtain ⟨ks₀, hks₀, hsched⟩ := doFusion_schedule boost model P fuser
  obtain rfl := Option.some.inj (hks.symm.trans hks₀)
  have hidx := FuseCache.instrIndexes_fillKernels Q ks
  have hhit : (c.insert (batchHash model P) ks).lookup (batchHash model Q) Q = if c.deactivated then none
      else some (FuseCache.fillKernels Q (ks.map BhIrKernel.instrIndexes)) := by
    rw [hhash]
    exact FuseCache.lookup_insert c _ ks Q
  refine ⟨ks, hks, _, hhit, ?_, ?_, ?_⟩
  · intro k hk i hi
    have hmem : k.instrIndexes ∈ ks.map BhIrKernel.instrIndexes := hidx ▸ List.mem_map.mpr ⟨k, hk, rfl⟩
    obtain ⟨k₀, hk₀, heq⟩ := List.mem_map.mp hmem
    rw [← hag.length]
    exact hsched.sub i (List.mem_flatMap.mpr ⟨k₀, hk₀, heq ▸ hi⟩)
  · intro k hk
    have hmem : k.instrIndexes ∈ ks.map BhIrKernel.instrIndexes := hidx ▸ List.mem_map.mpr ⟨k, hk, rfl⟩
    obtain ⟨k₀, hk₀, heq⟩ := List.mem_map.mp hmem
    have hlt : ∀ i ∈ k₀.instrIndexes, i < Q.length := fun i hi =>
      hag.length ▸ hsched.sub i (List.mem_flatMap.mpr ⟨k₀, hk₀, hi⟩)
    rw [fusible_iff, ← heq]
    refine (fusible_iff.mp (hfus k₀ hk₀)).imp_of_mem fun {i j} hi hj hij => ?_
    exact hag.fusible i (hlt i hi) j (hlt j hj) hij
  · intro i j hij hdep
    obtain ⟨hi, hj⟩ := dependencyAt_lt_length hdep
    have hdepP := hag.dependency i hi j hj hdep
    have hcat : ((FuseCache.fillKernels Q (ks.map BhIrKernel.instrIndexes)).flatMap
        BhIrKernel.instrIndexes) = concatenation ks := by
      rw [List.flatMap_def, hidx, concatenation, List.flatMap_def]
    rw [hcat]
    exact hsched.dependency hij hdepP

/-- `a = x + 1; b = c * 2` on vectors of three elements. -/
def separateVectors : List BhInstruction :=
  let vec : ℕ → BhView := fun addr => ⟨some ⟨addr, .int64, 4⟩, 0, [⟨3, 1⟩]⟩
  let k : BhView := ⟨none, 0, []⟩
  [⟨.add, vec 1, vec 0, k, .int .int64 1⟩, ⟨.multiply, vec 3, vec 2, k, .int .int64 2⟩]

/-- The same on other arrays. -/
def otherVectors : List BhInstruction :=
  let vec : ℕ → BhView := fun addr => ⟨some ⟨addr, .int64, 4⟩, 1, [⟨3, 1⟩]⟩
  let k : BhView := ⟨none, 0, []⟩
  [⟨.add, vec 5, vec 4, k, .int .int64 1⟩, ⟨.multiply, vec 7, vec 6, k, .int .int64 2⟩]

/-- The same with the second instruction reading the result of the first, one element further on. -/
def shiftedVector : List BhInstruction :=
  let vec : ℕ → ℤ → BhView := fun addr start => ⟨some ⟨addr, .int64, 4⟩, start, [⟨3, 1⟩]⟩
  let k : BhView := ⟨none, 0, []⟩
  [⟨.add, vec 1 0, vec 0 0, k, .int .int64 1⟩, ⟨.multiply, vec 3 0, vec 1 1, k, .int .int64 2⟩]

theorem lookup_otherVectors : ∃ ks, doFusion plainBoost .sameShape separateVectors .topological = some ks ∧
    ∃ ks', (FuseCache.insert {} (batchHash .sameShape separateVectors) ks).lookup
      (batchHash .sameShape otherVectors) otherVectors = some ks' ∧
      (∀ k ∈ ks', ∀ i ∈ k.instrIndexes, i < otherVectors.length) ∧
      (∀ k ∈ ks', k.fusible .sameShape otherVectors = true) ∧
      ∀ i j, i < j → dependencyAt otherVectors i j = true →
        [i, j].Sublist (ks'.flatMap BhIrKernel.instrIndexes) :=
  lookup_legal plainBoost .sameShape .topological separateVectors otherVectors {} (by decide +kernel)
    ⟨by decide, by decide, by decide⟩ (by unfold FusibleSymm; decide) fun h => by cases h

/-- Two batches with one string: the partition of the first puts both instructions into one kernel,
which the fuse model forbids for the second. -/
theorem lookup_shiftedVector :
    batchHash .sameShape separateVectors = batchHash .sameShape shiftedVector ∧
    ¬ ∀ ks ks', doFusion plainBoost .sameShape separateVectors .topological = some ks →
      (FuseCache.insert {} (batchHash .sameShape separateVectors) ks).lookup
        (batchHash .sameShape shiftedVector) shiftedVector = some ks' →
      ∀ k ∈ ks', k.fusible .sameShape shiftedVector = true := by
  refine ⟨by decide +kernel, fun h => ?_⟩
  have hrejected : ((doFusion plainBoost .sameShape separateVectors .topological).bind fun ks =>
      (FuseCache.insert {} (batchHash .sameShape separateVectors) ks).lookup
        (batchHash .sameShape shiftedVector) shiftedVector).any
      (fun ks' => ks'.any fun k => !k.fusible .sameShape shiftedVector) = true := by
    decide +kernel
  obtain ⟨ks', hks', hany⟩ := (Option.any_eq_true _ _).mp hrejected
  obtain ⟨ks, hks, hlookup⟩ := Option.bind_eq_some_iff.mp hks'
  obtain ⟨k, hk, hbad⟩ := List.any_eq_true.mp hany
  rw [h ks ks' hks hlookup k hk] at hbad
  cases hbad

end Bohrium
