import Bohrium.Filter.Bcexp
import Mathlib.Algebra.Ring.Int.Defs
import Mathlib.Algebra.BigOperators.Ring.List

/-! # The expansion filter keeps the meaning of a list

Each sequence leaves in the old arrays what the composite operation leaves there. The inputs are
read after the output has been started only where the output does not lie in their way: `powk` asks
for different bases, the real `sign` and `matmul` work on temporaries, and the complex `sign` does
neither. -/
namespace Bohrium
open Strided Reorder
set_option autoImplicit false

def BhType.isComplex (type : BhType) : Bool := type == .complex64 || type == .complex128

/-- Exact arithmetic: values form a commutative ring, conversions keep them, and the composite
operations are what they stand for. Comparisons, absolute value and division are not interpreted. -/
structure Interp.Composite {V : Type} [CommRing V] (I : Interp V) : Prop where
  konst_zero : ∀ type, I.konst (bhSetConstant type 0) = 0
  konst_one : ∀ type, I.konst (bhSetConstant type 1) = 1
  identity : ∀ ts x, I.ewise .identity ts [x] = x
  add : ∀ ts x y, I.ewise .add ts [x, y] = x + y
  subtract : ∀ ts x y, I.ewise .subtract ts [x, y] = x - y
  multiply : ∀ ts x y, I.ewise .multiply ts [x, y] = x * y
  greater : ∀ ts x y, I.ewise .greater ts [x, y] = I.ewise .greater [] [x, y]
  less : ∀ ts x y, I.ewise .less ts [x, y] = I.ewise .less [] [x, y]
  equal : ∀ ts x y, I.ewise .equal ts [x, y] = I.ewise .equal [] [x, y]
  absolute : ∀ ts x, I.ewise .absolute ts [x] = I.ewise .absolute [] [x]
  divide : ∀ ts x y, I.ewise .divide ts [x, y] = I.ewise .divide [] [x, y]
  power : ∀ ts x c, 0 ≤ bhGetInteger c → bhGetInteger c ≤ 100 →
    I.ewise .power ts [x, I.konst c] = x ^ (bhGetInteger c).toNat
  sign : ∀ out type x, I.ewise .sign [out, some type] [x] =
    if type.isComplex then
      I.ewise .divide [] [x, I.ewise .absolute [] [x] + I.ewise .equal [] [I.ewise .absolute [] [x], 0]]
    else I.ewise .greater [] [x, 0] - I.ewise .less [] [x, 0]
  addReduce : ∀ type x y, I.sweep .addReduce type x y = x + y
  addReduce_neutral : I.neutral .addReduce = 0
  matmul : ∀ c n m k xs ys r q, r < n → q < k →
    I.other .matmul c [([n, m], xs), ([m, k], ys)] [r, q] =
      ((List.range m).map fun j => xs.getD (r * m + j) 0 * ys.getD (j * k + q) 0).sum

/-! ## Injected instructions -/

section Run
variable {V : Type} {I : Interp V} (e : Expander)

theorem runWhole_unary (opcode : BhOpcode) (hk : bhKind opcode = .elementwise) (h2 : bhOperands opcode = 2)
    (out in1 : BhView) (m : Mem V) :
    runWhole I (e.unary opcode out in1) m = applyStores (storesTo out fun idx =>
      I.ewise opcode (e.unary opcode out in1).types [load I e.blank.constant in1 idx m]) m := by
  have hkind : (e.unary opcode out in1).kind = .elementwise := hk
  have hin : (e.unary opcode out in1).inputs = [in1] := by
    simp [BhInstruction.inputs, BhInstruction.operands, Expander.unary, h2]
  simp only [runWhole, wholeStores, hkind, hin, List.map_cons, List.map_nil]
  rfl

theorem runWhole_unaryConst (opcode : BhOpcode) (hk : bhKind opcode = .elementwise)
    (h2 : bhOperands opcode = 2) (out : BhView) (in1 : ℤ) (type : BhType) (m : Mem V) :
    runWhole I (e.unaryConst opcode out in1 type) m = applyStores (storesTo out fun _ =>
      I.ewise opcode (e.unaryConst opcode out in1 type).types [I.konst (bhSetConstant type in1)]) m := by
  have hkind : (e.unaryConst opcode out in1 type).kind = .elementwise := hk
  have hin : (e.unaryConst opcode out in1 type).inputs = [bhFlagConstant e.blank.operand1] := by
    simp [BhInstruction.inputs, BhInstruction.operands, Expander.unaryConst, h2]
  simp only [runWhole, wholeStores, hkind, hin, List.map_cons, List.map_nil]
  rfl

theorem runWhole_binary (opcode : BhOpcode) (hk : bhKind opcode = .elementwise) (h3 : bhOperands opcode = 3)
    (out in1 in2 : BhView) (m : Mem V) :
    runWhole I (e.binary opcode out in1 in2) m = applyStores (storesTo out fun idx =>
      I.ewise opcode (e.binary opcode out in1 in2).types
        [load I e.blank.constant in1 idx m, load I e.blank.constant in2 idx m]) m := by
  have hkind : (e.binary opcode out in1 in2).kind = .elementwise := hk
  have hin : (e.binary opcode out in1 in2).inputs = [in1, in2] := by
    simp [BhInstruction.inputs, BhInstruction.operands, Expander.binary, h3]
  simp only [runWhole, wholeStores, hkind, hin, List.map_cons, List.map_nil]
  rfl

theorem runWhole_binaryConst (opcode : BhOpcode) (hk : bhKind opcode = .elementwise)
    (h3 : bhOperands opcode = 3) (out in1 : BhView) (in2 : ℤ) (type : BhType) (m : Mem V) :
    runWhole I (e.binaryConst opcode out in1 in2 type) m = applyStores (storesTo out fun idx =>
      I.ewise opcode (e.binaryConst opcode out in1 in2 type).types
        [load I (bhSetConstant type in2) in1 idx m, I.konst (bhSetConstant type in2)]) m := by
  have hkind : (e.binaryConst opcode out in1 in2 type).kind = .elementwise := hk
  have hin : (e.binaryConst opcode out in1 in2 type).inputs = [in1, bhFlagConstant e.blank.operand2] := by
    simp [BhInstruction.inputs, BhInstruction.operands, Expander.binaryConst, h3]
  simp only [runWhole, wholeStores, hkind, hin, List.map_cons, List.map_nil]
  rfl

theorem runList_drop (v : BhView) (m : Mem V) : runList I (e.drop v) m = m := by
  simp only [Expander.drop, runList_cons]
  rw [runWhole_system I (rfl : (e.system .free v).isSystem = true),
    runWhole_system I (rfl : (e.system .discard v).isSystem = true)]
  rfl

end Run

/-! ## Powers -/

section Powk
variable {V : Type} [CommRing V] {I : Interp V} (e : Expander)

/-- The state while a power grows in `out`. -/
def Power (out : BhView) (x : List ℕ → V) (n : ℕ) (m m' : Mem V) : Prop :=
  m' = applyStores (storesTo out fun r => x r ^ n) m

variable {out in1 : BhView} {x : List ℕ → V} {m m' : Mem V}

theorem Power.load_out {n : ℕ} (h : Power out x n m m') (hout : out.base.isSome) {r : List ℕ}
    (hr : out.lastAt (out.offset r) = some r) (c : BhConstant) : load I c out r m' = x r ^ n := by
  rw [h]
  exact load_storesTo hout hr _ m

theorem Power.load_in {n : ℕ} (h : Power out x n m m') (hne : out.base ≠ in1.base) (c : BhConstant)
    (r : List ℕ) : load I c in1 r m' = load I c in1 r m := by
  rw [h]
  refine load_storesTo_of_base_ne (fun b hb => ?_) _ r m
  rwa [← hb]

/-- One multiplication into `out`. -/
theorem Power.multiply {n a b : ℕ} {u v : BhView} (hI : I.Composite) (h : m' = m ∨ Power out x n m m')
    (hu : ∀ r, out.lastAt (out.offset r) = some r → load I e.blank.constant u r m' = x r ^ a)
    (hv : ∀ r, out.lastAt (out.offset r) = some r → load I e.blank.constant v r m' = x r ^ b) :
    Power out x (a + b) m (runWhole I (e.binary .multiply out u v) m') := by
  rw [runWhole_binary e .multiply rfl rfl]
  have hval : ∀ l, applyStores (storesTo out fun idx => I.ewise .multiply (e.binary .multiply out u v).types
      [load I e.blank.constant u idx m', load I e.blank.constant v idx m']) m' l =
      applyStores (storesTo out fun r => x r ^ (a + b)) m' l := by
    intro l
    refine applyStores_storesTo_congr rfl fun r _ hr => ?_
    rw [hI.multiply, hu r hr, hv r hr, pow_add]
  rw [Power, funext hval]
  rcases h with rfl | h
  · rfl
  · rw [h, applyStores_storesTo_twice]

theorem Power.square_in (hI : I.Composite) (out in1 : BhView) (m : Mem V) :
    Power out (fun r => load I e.blank.constant in1 r m) 2 m
      (runWhole I (e.binary .multiply out in1 in1) m) :=
  Power.multiply (n := 0) (a := 1) (b := 1) e hI (Or.inl rfl) (fun _ _ => (pow_one _).symm)
    fun _ _ => (pow_one _).symm

theorem Power.times_in {n : ℕ} (hI : I.Composite) (hout : out.base.isSome) (hne : out.base ≠ in1.base)
    (h : Power out (fun r => load I e.blank.constant in1 r m) n m m') :
    Power out (fun r => load I e.blank.constant in1 r m) (n + 1) m
      (runWhole I (e.binary .multiply out out in1) m') := by
  refine Power.multiply e hI (Or.inr h) (fun r hr => h.load_out hout hr _) fun r _ => ?_
  rw [pow_one]
  exact h.load_in hne _ r

theorem Power.square {n : ℕ} (hI : I.Composite) (hout : out.base.isSome) (h : Power out x n m m') :
    Power out x (n + n) m (runWhole I (e.binary .multiply out out out) m') :=
  Power.multiply e hI (Or.inr h) (fun _ hr => h.load_out hout hr _) fun _ hr => h.load_out hout hr _

theorem Power.times_in_replicate {n : ℕ} (hI : I.Composite) (hout : out.base.isSome)
    (hne : out.base ≠ in1.base) (h : Power out (fun r => load I e.blank.constant in1 r m) n m m') (k : ℕ) :
    Power out (fun r => load I e.blank.constant in1 r m) (n + k) m
      (runList I (List.replicate k (e.binary .multiply out out in1)) m') := by
  induction k generalizing n m' with
  | zero => exact h
  | succ k ih =>
    rw [List.replicate_succ, runList_cons, ← Nat.add_assoc, Nat.add_right_comm]
    exact ih (h.times_in e hI hout hne)

theorem Power.runWhole_power (hI : I.Composite) {i : BhInstruction} (hop : i.opcode = .power)
    (hconst : i.operand2.base = none) (h0 : 0 ≤ bhGetInteger i.constant) (h100 : bhGetInteger i.constant ≤ 100)
    (m : Mem V) :
    Power i.operand0 (fun r => load I i.constant i.operand1 r m) (bhGetInteger i.constant).toNat m
      (runWhole I i m) := by
  have hkind : i.kind = .elementwise := by simp [BhInstruction.kind, hop, bhKind, bhOpcodeIsSystem, bhOpcodeIsElementwise]
  have hin : i.inputs = [i.operand1, i.operand2] := by
    simp [BhInstruction.inputs, BhInstruction.operands, hop, bhOperands]
  have hk : ∀ r, load I i.constant i.operand2 r m = I.konst i.constant := by
    intro r
    simp [load, hconst]
  simp only [Power, runWhole, wholeStores, hkind, hin, List.map_cons, List.map_nil, hk, hop,
    hI.power _ _ _ h0 h100]

/-- `expand_powk`: where it applies, the sequence is the power. -/
theorem runList_expandPowk (hI : I.Composite) {i : BhInstruction} (hop : i.opcode = .power)
    (hout : i.operand0.base.isSome)
    (hin : i.operand1.base.isSome ∨ i.operand2.base.isSome ∨ bhGetInteger i.constant ≤ 0 ∨
      100 < bhGetInteger i.constant) :
    ∃ seq, e.expandPowk i = some seq ∧ (seq ≠ [] → ∀ m : Mem V, runList I seq m = runWhole I i m) := by
  obtain ⟨b, hb⟩ := Option.isSome_iff_exists.mp hout
  unfold Expander.expandPowk
  dsimp only
  split_ifs with hc hrange hbase
  · exact ⟨[], rfl, fun h => absurd rfl h⟩
  · exact ⟨[], rfl, fun h => absurd rfl h⟩
  · exact ⟨[], rfl, fun h => absurd rfl h⟩
  · simp only [not_or, not_lt] at hrange
    have hconst : i.operand2.base = none := by simpa [bhIsConstant] using hc
    have hpower := Power.runWhole_power hI hop hconst hrange.1 hrange.2
    -- a constant first input is possible for the exponent 0 only
    have harray : (bhGetInteger i.constant).toNat ≠ 0 → ∀ r (m : Mem V),
        load I i.constant i.operand1 r m = load I e.blank.constant i.operand1 r m := by
      intro hpos r m
      have hsome : i.operand1.base.isSome := by
        rcases hin with h | h | h | h
        · exact h
        · rw [hconst] at h; cases h
        · omega
        · omega
      obtain ⟨b1, hb1⟩ := Option.isSome_iff_exists.mp hsome
      rw [load_of_base hb1, load_of_base hb1]
    have hfin : ∀ seq : List BhInstruction, (bhGetInteger i.constant).toNat ≠ 0 →
        (∀ m : Mem V, Power i.operand0 (fun r => load I e.blank.constant i.operand1 r m)
          (bhGetInteger i.constant).toNat m (runList I seq m)) →
        ∃ seq', some seq = some seq' ∧ (seq' ≠ [] → ∀ m : Mem V, runList I seq' m = runWhole I i m) := by
      intro seq hpos h
      refine ⟨seq, rfl, fun _ m => ?_⟩
      have h1 := hpower m
      simp only [harray hpos] at h1
      exact (h m).trans h1.symm
    generalize hn : (bhGetInteger i.constant).toNat = n at hpower harray hfin
    have hstart := fun m : Mem V => Power.square_in e hI i.operand0 i.operand1 m
    obtain _ | _ | _ | _ | _ | _ | n := n
    · refine ⟨_, by rw [hb]; rfl, fun _ m => ?_⟩
      have hrun := runWhole_unaryConst (I := I) e .identity rfl rfl i.operand0 1 b.type m
      rw [runList_cons, hrun, hpower m]
      simp only [hI.identity, hI.konst_one, pow_zero]
      rfl
    · refine hfin _ (by simp) fun m => ?_
      have hrun := runWhole_unary (I := I) e .identity rfl rfl i.operand0 i.operand1 m
      rw [runList_cons, hrun]
      simp only [hI.identity, Power, zero_add, pow_one]
      rfl
    · exact hfin _ (by simp) hstart
    · exact hfin _ (by simp) fun m => (hstart m).times_in e hI hout hbase
    · exact hfin _ (by simp) fun m => (hstart m).square e hI hout
    · exact hfin _ (by simp) fun m => ((hstart m).square e hI hout).times_in e hI hout hbase
    · refine hfin _ (by simp) fun m => ?_
      have h := (hstart m).times_in_replicate e hI hout hbase (n + 4)
      rwa [Nat.add_comm 2, Nat.add_assoc] at h

end Powk

/-! ## Temporaries -/

/-- The address of the base of a view. -/
def BhView.baseAddr (v : BhView) : Option ℕ := v.base.map BhBase.addr

theorem shape_contiguous (ds : List Dim) : (contiguous ds).map Dim.shape = ds.map Dim.shape := by
  induction ds with
  | nil => rfl
  | cons d ds ih => simp [contiguous, ih]

theorem dot_contiguous (ds : List Dim) (idx : List ℕ) :
    dot (contiguous ds) idx = flatIndex (ds.map Dim.shape) idx := by
  induction ds generalizing idx with
  | nil => cases idx <;> rfl
  | cons d ds ih =>
    cases idx with
    | nil => rfl
    | cons i idx => simp [contiguous, dot, flatIndex, ih]

/-- The layout of the temporaries: contiguous, from the start of their base on. -/
def BhView.Contiguous (v : BhView) : Prop := v.start = 0 ∧ ∃ ds, v.dims = contiguous ds

theorem BhView.Contiguous.injective {v : BhView} (h : v.Contiguous) : v.Injective := by
  obtain ⟨hs, ds, hds⟩ := h
  have hoff : ∀ idx, v.offset idx = flatIndex v.shape idx := by
    intro idx
    rw [offset, hs, hds, dot_contiguous, Int.zero_add, shape, hds, shape_contiguous]
  rw [Injective, offsets_eq_map]
  refine (nodup_indices _).map_on fun idx hi idx' hi' he => ?_
  rw [hoff, hoff] at he
  exact flatIndex_inj hi hi' (by exact_mod_cast he)

/-- A temporary with the shape of `out` in a base of its own. -/
structure BhView.Temp (v out : BhView) (addr : ℕ) : Prop where
  contiguous : v.Contiguous
  baseAddr : v.baseAddr = some addr
  shape : v.shape = out.shape

theorem temp_makeTemp (out : BhView) (type : BhType) (addr : ℕ) :
    (makeTemp { out with start := 0, dims := contiguous out.dims } type addr).Temp out addr :=
  ⟨⟨rfl, _, rfl⟩, rfl, shape_contiguous _⟩

section Temps
variable {V : Type} {I : Interp V} {v out : BhView} {a : ℕ} {f g : List ℕ → V} {m m' : Mem V}

/-- A step that stores `f` into a temporary and touches nothing else. -/
structure Sets (I : Interp V) (v out : BhView) (a : ℕ) (f : List ℕ → V) (m m' : Mem V) : Prop where
  value : ∀ r ∈ indices out.shape, ∀ c, load I c v r m' = f r
  frame : ∀ l : Loc, l.1.addr ≠ a → m' l = m l

theorem BhView.Temp.sets (hv : v.Temp out a) (h : ∀ r ∈ indices out.shape, g r = f r) :
    Sets I v out a f m (applyStores (storesTo v g) m) := by
  obtain ⟨b, hb, hba⟩ := Option.map_eq_some_iff.mp hv.baseAddr
  refine ⟨fun r hr c => ?_, fun l hl => ?_⟩
  · rw [load_storesTo (by simp [hb]) (hv.contiguous.injective.lastAt_offset (hv.shape ▸ hr)), h r hr]
  · apply applyStores_storesTo_of_base_ne
    intro hbl
    rw [hb, Option.some.injEq] at hbl
    exact hl (hbl ▸ hba)

/-- A step leaves the views of other bases alone. -/
theorem Sets.load_eq (h : Sets I v out a f m m') {w : BhView} {p : ℕ} (hw : w.baseAddr = some p)
    (hp : p ≠ a) (c : BhConstant) (r : List ℕ) : load I c w r m' = load I c w r m := by
  obtain ⟨b, hb, rfl⟩ := Option.map_eq_some_iff.mp hw
  rw [load_of_base hb, load_of_base hb, h.frame _ hp]

end Temps

/-! ## Signs -/

theorem runWhole_sign {V : Type} {I : Interp V} {i : BhInstruction} {b : BhBase} (hop : i.opcode = .sign)
    (hb : i.operand1.base = some b) (m : Mem V) :
    runWhole I i m = applyStores (storesTo i.operand0 fun r =>
      I.ewise .sign [i.outType, some b.type] [m (b, i.operand1.offset r)]) m := by
  have hkind : i.kind = .elementwise := by
    simp [BhInstruction.kind, hop, bhKind, bhOpcodeIsSystem, bhOpcodeIsElementwise]
  have hin : i.inputs = [i.operand1] := by
    simp [BhInstruction.inputs, BhInstruction.operands, hop, bhOperands]
  have hts : i.types = [i.outType, some b.type] := by
    simp [BhInstruction.types, BhInstruction.operands, hop, bhOperands, BhInstruction.outType, hb]
  simp only [runWhole, wholeStores, hkind, hin, List.map_cons, List.map_nil, hop, hts, load_of_base hb]

section Sign
variable {V : Type} [CommRing V] {I : Interp V} (e : Expander) {i : BhInstruction} {b : BhBase} {addr : ℕ}

/-- The sequence for `(x > 0) - (x < 0)`. -/
theorem runList_sign_real (hI : I.Composite) {output input lss gtr tBool : BhView} {type : BhType}
    (hb : input.base = some b) (hold : b.addr < addr) (hlss : lss.Temp output addr)
    (hgtr : gtr.Temp output (addr + 1)) (hbool : tBool.Temp output (addr + 2)) (m : Mem V) {l : Loc}
    (hl : l.1.addr < addr) :
    runList I ([e.binaryConst .greater tBool input 0 type, e.unary .identity lss tBool] ++ e.drop tBool ++
      [e.binaryConst .less tBool input 0 type, e.unary .identity gtr tBool] ++ e.drop tBool ++
      [e.binary .subtract output lss gtr] ++ e.drop lss ++ e.drop gtr) m l =
    applyStores (storesTo output fun r => I.ewise .greater [] [m (b, input.offset r), 0] -
      I.ewise .less [] [m (b, input.offset r), 0]) m l := by
  have hin : input.baseAddr = some b.addr := by simp [BhView.baseAddr, hb]
  simp only [runList_append, runList_cons, runList_drop, runList_nil]
  have h₁ : Sets I tBool output (addr + 2) (fun r => I.ewise .greater [] [m (b, input.offset r), 0]) m
      (runWhole I (e.binaryConst .greater tBool input 0 type) m) := by
    rw [runWhole_binaryConst e .greater rfl rfl]
    refine hbool.sets fun r _ => ?_
    rw [hI.greater, hI.konst_zero, load_of_base hb]
  generalize runWhole I (e.binaryConst .greater tBool input 0 type) m = m₁ at h₁ ⊢
  have h₂ : Sets I lss output addr (fun r => I.ewise .greater [] [m (b, input.offset r), 0]) m₁
      (runWhole I (e.unary .identity lss tBool) m₁) := by
    rw [runWhole_unary e .identity rfl rfl]
    refine hlss.sets fun r hr => ?_
    rw [hI.identity, h₁.value r hr]
  generalize runWhole I (e.unary .identity lss tBool) m₁ = m₂ at h₂ ⊢
  have h₃ : Sets I tBool output (addr + 2) (fun r => I.ewise .less [] [m (b, input.offset r), 0]) m₂
      (runWhole I (e.binaryConst .less tBool input 0 type) m₂) := by
    rw [runWhole_binaryConst e .less rfl rfl]
    refine hbool.sets fun r _ => ?_
    rw [hI.less, hI.konst_zero, h₂.load_eq hin (by omega), h₁.load_eq hin (by omega), load_of_base hb]
  generalize runWhole I (e.binaryConst .less tBool input 0 type) m₂ = m₃ at h₃ ⊢
  have h₄ : Sets I gtr output (addr + 1) (fun r => I.ewise .less [] [m (b, input.offset r), 0]) m₃
      (runWhole I (e.unary .identity gtr tBool) m₃) := by
    rw [runWhole_unary e .identity rfl rfl]
    refine hgtr.sets fun r hr => ?_
    rw [hI.identity, h₃.value r hr]
  generalize runWhole I (e.unary .identity gtr tBool) m₃ = m₄ at h₄ ⊢
  rw [runWhole_binary e .subtract rfl rfl]
  refine applyStores_storesTo_congr ?_ fun r hr _ => ?_
  · rw [h₄.frame l (by omega), h₃.frame l (by omega), h₂.frame l (by omega), h₁.frame l (by omega)]
  · rw [hI.subtract, h₄.value r hr, h₄.load_eq hlss.baseAddr (by omega),
      h₃.load_eq hlss.baseAddr (by omega), h₂.value r hr]

/-- The sequence for `z / (|z| + [|z| = 0])`, which puts the divisor into the output before it reads
the input again. -/
theorem runList_sign_complex (hI : I.Composite) {output input fAbs bZero fZero : BhView} {type : BhType}
    (hb : input.base = some b) (hout : output.base.isSome) (hold : b.addr < addr)
    (hfAbs : fAbs.Temp output addr)
    (hbZero : bZero.Temp output (addr + 1)) (hfZero : fZero.Temp output (addr + 2))
    (hshape : input.shape = output.shape) (hdis : ¬ BhView.Overlap output input) (m : Mem V) {l : Loc}
    (hl : l.1.addr < addr) :
    runList I ([e.unary .absolute fAbs input, e.binaryConst .equal bZero fAbs 0 type,
        e.unary .identity fZero bZero] ++ e.drop bZero ++
      [e.binary .add fAbs fAbs fZero] ++ e.drop fZero ++
      [e.unary .identity output fAbs] ++ e.drop fAbs ++ [e.binary .divide output input output]) m l =
    applyStores (storesTo output fun r => I.ewise .divide [] [m (b, input.offset r),
      I.ewise .absolute [] [m (b, input.offset r)] +
        I.ewise .equal [] [I.ewise .absolute [] [m (b, input.offset r)], 0]]) m l := by
  have hin : input.baseAddr = some b.addr := by simp [BhView.baseAddr, hb]
  simp only [runList_append, runList_cons, runList_drop, runList_nil]
  let abs (r : List ℕ) : V := I.ewise .absolute [] [m (b, input.offset r)]
  let zero (r : List ℕ) : V := I.ewise .equal [] [abs r, 0]
  have h₁ : Sets I fAbs output addr abs m (runWhole I (e.unary .absolute fAbs input) m) := by
    rw [runWhole_unary e .absolute rfl rfl]
    refine hfAbs.sets fun r _ => ?_
    rw [hI.absolute, load_of_base hb]
  generalize runWhole I (e.unary .absolute fAbs input) m = m₁ at h₁ ⊢
  have h₂ : Sets I bZero output (addr + 1) zero m₁
      (runWhole I (e.binaryConst .equal bZero fAbs 0 type) m₁) := by
    rw [runWhole_binaryConst e .equal rfl rfl]
    refine hbZero.sets fun r hr => ?_
    rw [hI.equal, hI.konst_zero, h₁.value r hr]
  generalize runWhole I (e.binaryConst .equal bZero fAbs 0 type) m₁ = m₂ at h₂ ⊢
  have h₃ : Sets I fZero output (addr + 2) zero m₂ (runWhole I (e.unary .identity fZero bZero) m₂) := by
    rw [runWhole_unary e .identity rfl rfl]
    refine hfZero.sets fun r hr => ?_
    rw [hI.identity, h₂.value r hr]
  generalize runWhole I (e.unary .identity fZero bZero) m₂ = m₃ at h₃ ⊢
  have h₄ : Sets I fAbs output addr (fun r => abs r + zero r) m₃
      (runWhole I (e.binary .add fAbs fAbs fZero) m₃) := by
    rw [runWhole_binary e .add rfl rfl]
    refine hfAbs.sets fun r hr => ?_
    rw [hI.add, h₃.value r hr, h₃.load_eq hfAbs.baseAddr (by omega),
      h₂.load_eq hfAbs.baseAddr (by omega), h₁.value r hr]
  generalize runWhole I (e.binary .add fAbs fAbs fZero) m₃ = m₄ at h₄ ⊢
  have hold₄ : ∀ k : Loc, k.1.addr < addr → m₄ k = m k := by
    intro k hk
    rw [h₄.frame k (by omega), h₃.frame k (by omega), h₂.frame k (by omega), h₁.frame k (by omega)]
  rw [runWhole_unary e .identity rfl rfl, runWhole_binary e .divide rfl rfl, applyStores_storesTo_twice]
  refine applyStores_storesTo_congr (hold₄ l hl) fun r hr hlast => ?_
  have hrin : r ∈ indices input.shape := hshape ▸ hr
  rw [hI.divide, load_storesTo_of_not_overlap hdis _ hrin, load_storesTo hout hlast, hI.identity,
    h₄.value r hr, load_of_base hb, hold₄ (b, _) hold]

/-- `expand_sign`, for arrays with addresses below `addr`. A complex output must not lie on its
input. -/
theorem runList_expandSign (hI : I.Composite) (hop : i.opcode = .sign) (hb : i.operand1.base = some b)
    (hout : i.operand0.base.isSome) (hold : b.addr < addr)
    (hcomplex : b.type.isComplex = true →
      i.operand1.shape = i.operand0.shape ∧ ¬ BhView.Overlap i.operand0 i.operand1) :
    ∃ seq, e.expandSign addr i = some seq ∧
      ∀ (m : Mem V) (l : Loc), l.1.addr < addr → runList I seq m l = runWhole I i m l := by
  have htemp := temp_makeTemp i.operand0
  simp only [Expander.expandSign, hb, Option.map_some]
  refine ⟨_, rfl, fun m l hl => ?_⟩
  rw [runWhole_sign hop hb]
  simp only [hI.sign]
  cases hc : b.type.isComplex with
  | false =>
    have hty : b.type ≠ .complex64 ∧ b.type ≠ .complex128 := by
      simpa [BhType.isComplex] using hc
    rw [if_pos hty]
    exact runList_sign_real e hI hb hold (htemp _ _) (htemp _ _) (htemp _ _) m hl
  | true =>
    have hty : ¬ (b.type ≠ .complex64 ∧ b.type ≠ .complex128) := by
      intro hty
      simp [BhType.isComplex, hty] at hc
    obtain ⟨hshape, hdis⟩ := hcomplex hc
    rw [if_neg hty]
    exact runList_sign_complex e hI hb hout hold (htemp _ _) (htemp _ _) (htemp _ _) hshape
      hdis m hl

end Sign

/-! ## Matrix products -/

namespace BhInstruction

/-- The operands of a matrix product: two-dimensional arrays that fit together, with lengths that an
`int` holds. An output base of one element is a 1 x 1 output. -/
def MatmulFits (i : BhInstruction) : Prop :=
  let n := i.operand1.shape.getD 0 0
  let m := i.operand1.shape.getD 1 0
  let k := i.operand2.shape.getD 1 0
  i.operand1.base.isSome ∧ i.operand2.base.isSome ∧ i.operand1.shape = [n, m] ∧
    i.operand2.shape = [m, k] ∧ i.operand0.shape = [n, k] ∧
    (n < 2147483648 ∧ m < 2147483648 ∧ k < 2147483648) ∧ (i.isComplete = true → n = 1 ∧ k = 1)

instance (i : BhInstruction) : Decidable i.MatmulFits :=
  inferInstanceAs (Decidable (_ ∧ _ ∧ _ ∧ _ ∧ _ ∧ _ ∧ (_ → _)))

end BhInstruction

theorem exists_pair {n k : ℕ} {o : List ℕ} (ho : o ∈ indices [n, k]) : ∃ r q, r < n ∧ q < k ∧ o = [r, q] := by
  cases mem_indices.mp ho with
  | cons hr hrest =>
    cases hrest with
    | cons hq hnil =>
      cases hnil
      exact ⟨_, _, hr, hq, rfl⟩

theorem offset_pair {v : BhView} {n m : ℕ} (hs : v.shape = [n, m]) (r j : ℕ) :
    v.offset [r, j] = v.start + (r * Expander.strideAt v 0 + j * Expander.strideAt v 1) := by
  unfold BhView.shape at hs
  obtain ⟨d₀, d₁, hd⟩ : ∃ d₀ d₁, v.dims = [d₀, d₁] := by
    have hlen : v.dims.length = 2 := by simpa using congrArg List.length hs
    exact List.length_eq_two.mp hlen
  simp [BhView.offset, Expander.strideAt, hd, dot]

section Matmul
variable {V : Type} [CommRing V] {I : Interp V} (e : Expander) {i : BhInstruction} {addr n m k : ℕ}

theorem reduce_addReduce (hI : I.Composite) (type : Option BhType) (xs : List V) :
    I.reduce .addReduce type xs = xs.sum := by
  have hfold : ∀ (ys : List V) (x : V), ys.foldl (I.sweep .addReduce type) x = x + ys.sum := by
    intro ys
    induction ys with
    | nil => simp
    | cons y ys ih =>
      intro x
      rw [List.foldl_cons, ih, hI.addReduce, List.sum_cons, add_assoc]
  cases xs with
  | nil => exact hI.addReduce_neutral
  | cons x xs => rw [Interp.reduce, hfold, List.sum_cons]

theorem contents_getD {v : BhView} {b : BhBase} (hb : v.base = some b) {n m r j : ℕ} (hs : v.shape = [n, m])
    (hr : r < n) (hj : j < m) (c : BhConstant) (mem : Mem V) :
    (contents I c v mem).getD (r * m + j) 0 = mem (b, v.offset [r, j]) := by
  have hidx : [r, j] ∈ indices [n, m] := mem_indices.mpr (.cons hr (.cons hj .nil))
  have hget := getElem?_flatIndex hidx
  rw [show flatIndex [n, m] [r, j] = r * m + j by simp [flatIndex]] at hget
  rw [contents, hs, List.getD_eq_getElem?_getD, List.getElem?_map, hget]
  simp [load_of_base hb]

theorem runWhole_matmul (hI : I.Composite) (hop : i.opcode = .matmul) {a b : BhBase}
    (ha : i.operand1.base = some a) (hb : i.operand2.base = some b) (hsa : i.operand1.shape = [n, m])
    (hsb : i.operand2.shape = [m, k]) (hso : i.operand0.shape = [n, k]) (mem : Mem V) (l : Loc) :
    runWhole I i mem l = applyStores (storesTo i.operand0 fun o =>
      ((List.range m).map fun j => mem (a, i.operand1.offset [o.getD 0 0, j]) *
        mem (b, i.operand2.offset [j, o.getD 1 0])).sum) mem l := by
  have hkind : i.kind = .other := by
    simp [BhInstruction.kind, hop, bhKind, bhOpcodeIsSystem, bhOpcodeIsElementwise, bhOpcodeIsReduction,
      bhOpcodeIsAccumulate]
  have hin : i.inputs = [i.operand1, i.operand2] := by
    simp [BhInstruction.inputs, BhInstruction.operands, hop, bhOperands]
  simp only [runWhole, wholeStores, hkind, hin, List.map_cons, List.map_nil, hop, hsa, hsb]
  refine applyStores_storesTo_congr rfl fun o ho _ => ?_
  rw [hso] at ho
  obtain ⟨r, q, hr, hq, rfl⟩ := exists_pair ho
  rw [hI.matmul _ _ _ _ _ _ _ _ hr hq]
  refine congrArg List.sum (List.map_congr_left fun j hj => ?_)
  rw [List.mem_range] at hj
  rw [contents_getD ha hsa hr hj, contents_getD hb hsb hj hq]
  rfl

/-- The elements that one output element of the final reduction sums up. -/
theorem perm_fibre {j : BhInstruction} (haxis : j.axis = 2) (hshape : j.operand1.shape = [n, k, m])
    (hc : j.isComplete = true → n = 1 ∧ k = 1) {r q : ℕ} (hr : r < n) (hq : q < k) :
    (j.fibre [r, q]).Perm ((List.range m).map fun x => [r, q, x]) := by
  have hinj : Function.Injective fun x : ℕ => [r, q, x] := by
    intro x y h
    simpa using h
  rw [BhInstruction.fibre,
    List.perm_ext_iff_of_nodup ((nodup_indices _).filter _) (List.nodup_range.map hinj)]
  intro idx
  rw [List.mem_filter, hshape, haxis, mem_indices]
  constructor
  · rintro ⟨hidx, hsel⟩
    obtain ⟨r', q', x, hr', hq', hx, rfl⟩ : ∃ r' q' x, r' < n ∧ q' < k ∧ x < m ∧ idx = [r', q', x] := by
      cases hidx with
      | cons h1 h =>
        cases h with
        | cons h2 h =>
          cases h with
          | cons h3 h =>
            cases h
            exact ⟨_, _, _, h1, h2, h3, rfl⟩
    have hrq : r' = r ∧ q' = q := by
      rcases Bool.or_eq_true_iff.mp hsel with hcomp | he
      · obtain ⟨rfl, rfl⟩ := hc hcomp
        omega
      · simpa [reduceIndex] using he
    obtain ⟨rfl, rfl⟩ := hrq
    exact List.mem_map.mpr ⟨x, List.mem_range.mpr hx, rfl⟩
  · intro hmem
    obtain ⟨x, hx, rfl⟩ := List.mem_map.mp hmem
    refine ⟨.cons hr (.cons hq (.cons (List.mem_range.mp hx) .nil)), ?_⟩
    simp [reduceIndex]

theorem intShape_eq {v : BhView} {dim : ℕ} (h : v.shape.getD dim 0 < 2147483648) :
    Expander.intShape v dim = v.shape.getD dim 0 := by
  rw [Expander.intShape, CInt.toInt32_of_fits ⟨by omega, by omega⟩, Int.toNat_natCast]

/-- All products in a temporary, then the sums along its last axis. -/
theorem runList_productSum (hI : I.Composite) {out a3d b3d c3d : BhView} {a b : BhBase}
    (ha : a3d.base = some a) (hb : b3d.base = some b) (hc3d : c3d.Temp b3d addr)
    (hshape : b3d.shape = [n, k, m]) (hso : out.shape = [n, k])
    (hc : out.base.map BhBase.nelem = some 1 → n = 1 ∧ k = 1) (mem : Mem V) {l : Loc} (hl : l.1.addr < addr) :
    runList I ([e.binary .multiply c3d a3d b3d, e.binaryConst .addReduce out c3d 2 .int64] ++ e.drop c3d)
        mem l =
      applyStores (storesTo out fun o => ((List.range m).map fun j =>
        mem (a, a3d.offset [o.getD 0 0, o.getD 1 0, j]) *
          mem (b, b3d.offset [o.getD 0 0, o.getD 1 0, j])).sum) mem l := by
  rw [runList_append, runList_drop, runList_cons, runList_cons, runList_nil]
  have h₁ : Sets I c3d b3d addr (fun idx => mem (a, a3d.offset idx) * mem (b, b3d.offset idx)) mem
      (runWhole I (e.binary .multiply c3d a3d b3d) mem) := by
    rw [runWhole_binary e .multiply rfl rfl]
    refine hc3d.sets fun r _ => ?_
    rw [hI.multiply, load_of_base ha, load_of_base hb]
  generalize runWhole I (e.binary .multiply c3d a3d b3d) mem = mem₁ at h₁ ⊢
  generalize hj : e.binaryConst .addReduce out c3d 2 .int64 = j
  have hkind : j.kind = .reduction := by rw [← hj]; rfl
  have haxis : j.axis = 2 := by rw [← hj]; rfl
  have hcomplete : j.isComplete = true → n = 1 ∧ k = 1 := by
    intro h
    exact hc (by simpa [← hj, BhInstruction.isComplete, Expander.binaryConst] using h)
  have hout : j.operand0 = out := by rw [← hj]; rfl
  have hin : j.operand1 = c3d := by rw [← hj]; rfl
  have hop : j.opcode = .addReduce := by rw [← hj]; rfl
  simp only [runWhole, wholeStores, hkind, hout, hin, hop, reduce_addReduce hI]
  refine applyStores_storesTo_congr (h₁.frame l (by omega)) fun o ho _ => ?_
  obtain ⟨r, q, hr, hq, rfl⟩ := exists_pair (hso ▸ ho)
  have hperm := perm_fibre haxis (by rw [hin, hc3d.shape, hshape]) hcomplete hr hq
  rw [(hperm.map _).sum_eq, List.map_map]
  refine congrArg List.sum (List.map_congr_left fun x hx => ?_)
  refine h₁.value _ ?_ j.constant
  rw [hshape, mem_indices]
  exact .cons hr (.cons hq (.cons (List.mem_range.mp hx) .nil))

/-- `expand_matmul`, for arrays with addresses below `addr`. -/
theorem runList_expandMatmul (addr : ℕ) (hI : I.Composite) (hop : i.opcode = .matmul) (hfits : i.MatmulFits) :
    ∃ seq, e.expandMatmul addr i = some seq ∧
      ∀ (mem : Mem V) (l : Loc), l.1.addr < addr → runList I seq mem l = runWhole I i mem l := by
  obtain ⟨hsa, hsb, hshapea, hshapeb, hshapeo, ⟨hn, hm, hk⟩, hc⟩ := hfits
  obtain ⟨a, ha⟩ := Option.isSome_iff_exists.mp hsa
  obtain ⟨b, hb⟩ := Option.isSome_iff_exists.mp hsb
  rw [← intShape_eq hn, ← intShape_eq hm] at hshapea
  rw [← intShape_eq hm, ← intShape_eq hk] at hshapeb
  rw [← intShape_eq hn, ← intShape_eq hk] at hshapeo hc
  have hcomplete : i.operand0.base.map BhBase.nelem = some 1 →
      Expander.intShape i.operand1 0 = 1 ∧ Expander.intShape i.operand2 1 = 1 :=
    fun h => hc (by simp [BhInstruction.isComplete, h])
  simp only [Expander.expandMatmul, hb, Option.map_some]
  generalize Expander.intShape i.operand1 0 = n at *
  generalize Expander.intShape i.operand1 1 = m at *
  generalize Expander.intShape i.operand2 1 = k at *
  refine ⟨_, rfl, fun mem l hl => ?_⟩
  rw [runWhole_matmul hI hop ha hb hshapea hshapeb hshapeo]
  let a3d : BhView := ⟨i.operand1.base, i.operand1.start,
    [⟨n, Expander.strideAt i.operand1 0⟩, ⟨k, 0⟩, ⟨m, Expander.strideAt i.operand1 1⟩]⟩
  let b3d : BhView := ⟨some b, i.operand2.start,
    [⟨n, 0⟩, ⟨k, Expander.strideAt i.operand2 1⟩, ⟨m, Expander.strideAt i.operand2 0⟩]⟩
  have hshape : b3d.shape = [n, k, m] := rfl
  refine (runList_productSum e hI (show a3d.base = some a from ha) rfl (temp_makeTemp b3d b.type addr)
    hshape hshapeo hcomplete mem hl).trans ?_
  -- both views walk the matrices along `[r, j]` and `[j, q]`
  refine applyStores_storesTo_congr rfl fun o ho _ => ?_
  obtain ⟨r, q, hr, hq, rfl⟩ := exists_pair (hshapeo ▸ ho)
  refine congrArg List.sum (List.map_congr_left fun j _ => ?_)
  have hoffa : a3d.offset [r, q, j] = i.operand1.offset [r, j] := by
    rw [offset_pair hshapea]
    simp [a3d, BhView.offset, dot]
  have hoffb : b3d.offset [r, q, j] = i.operand2.offset [j, q] := by
    rw [offset_pair hshapeb]
    simp [b3d, BhView.offset, dot]
    ring
  simp [hoffa, hoffb]

end Matmul
/-! ## The whole list -/

/-- What an instruction must be like for its expansion to be right: a power of an array, operands
that fit a matrix product, the sign of an array, and no complex sign in place. -/
def BhInstruction.Expandable (i : BhInstruction) : Prop :=
  match i.opcode with
  | .power => i.operand0.base.isSome ∧ (i.operand1.base.isSome ∨ i.operand2.base.isSome ∨
      bhGetInteger i.constant ≤ 0 ∨ 100 < bhGetInteger i.constant)
  | .matmul => i.MatmulFits
  | .sign => i.operand0.base.isSome ∧ i.operand1.base.isSome ∧
      ((i.operand1.base.any fun b => b.type.isComplex) = true →
        i.operand1.shape = i.operand0.shape ∧ ¬ BhView.Overlap i.operand0 i.operand1)
  | _ => True

instance (i : BhInstruction) : Decidable i.Expandable := by
  unfold BhInstruction.Expandable
  split <;> infer_instance

/-- Every base of the instruction is older than the address `n`. -/
def BhInstruction.Older (n : ℕ) (i : BhInstruction) : Prop :=
  ∀ v ∈ i.operands, ∀ b ∈ v.base, b.addr < n

instance (n : ℕ) (i : BhInstruction) : Decidable (i.Older n) :=
  inferInstanceAs (Decidable (∀ v ∈ i.operands, _))

section Older
variable {V : Type} {I : Interp V} {i : BhInstruction} {n : ℕ}

theorem runList_toNone (seq : List BhInstruction) (m : Mem V) :
    runList I (i.toNone :: seq) m = runList I seq m := by
  rw [runList_cons, runWhole_system I (rfl : i.toNone.isSystem = true)]

/-- An instruction does not see what lies in younger bases. -/
theorem runWhole_older (hold : i.Older n) {m m' : Mem V} (h : ∀ l : Loc, l.1.addr < n → m' l = m l) :
    ∀ l : Loc, l.1.addr < n → runWhole I i m' l = runWhole I i m l := by
  intro l hl
  have hfp := runWhole_footprint I i
  by_cases hmem : l ∈ i.onBases
  · refine hfp.reads m' m (fun k hk => ?_) l hmem
    obtain ⟨v, hv, hb⟩ := hk
    exact h k (hold v hv k.1 hb)
  · rw [hfp.frame m' l hmem, hfp.frame m l hmem, h l hl]

end Older

section Expand
variable {V : Type} [CommRing V] {I : Interp V} (e : Expander) {i : BhInstruction} {n addr : ℕ}

theorem runList_expansion (hI : I.Composite) (hi : i.Expandable) (hold : i.Older n) (haddr : n ≤ addr) :
    ∃ seq addr', e.expansion addr i = some (seq, addr') ∧ addr ≤ addr' ∧
      ∀ (m : Mem V) (l : Loc), l.1.addr < n → runList I seq m l = runWhole I i m l := by
  have hstay : e.expansion addr i = some ([i], addr) → ∃ seq addr', e.expansion addr i = some (seq, addr') ∧
      addr ≤ addr' ∧ ∀ (m : Mem V) (l : Loc), l.1.addr < n → runList I seq m l = runWhole I i m l :=
    fun h => ⟨[i], addr, h, le_rfl, fun m l _ => rfl⟩
  unfold BhInstruction.Expandable at hi
  split at hi
  · rename_i hop
    obtain ⟨hout, hin⟩ := hi
    by_cases hflag : e.powk = true
    · obtain ⟨seq, hseq, hrun⟩ := runList_expandPowk e hI hop hout hin
      by_cases hnil : seq = []
      · exact hstay (by simp [Expander.expansion, hop, hflag, hseq, hnil])
      · refine ⟨i.toNone :: seq, addr, by simp [Expander.expansion, hop, hflag, hseq, hnil], le_rfl, ?_⟩
        intro m l _
        rw [runList_toNone, hrun hnil]
    · exact hstay (by simp [Expander.expansion, hop, hflag])
  · rename_i hop
    by_cases hflag : e.matmul = true
    · obtain ⟨seq, hseq, hrun⟩ := runList_expandMatmul (I := I) e addr hI hop hi
      refine ⟨i.toNone :: seq, addr + 1, by simp [Expander.expansion, hop, hflag, hseq], by omega, ?_⟩
      intro m l hl
      rw [runList_toNone, hrun m l (by omega)]
    · exact hstay (by simp [Expander.expansion, hop, hflag])
  · rename_i hop
    obtain ⟨hout, hin, hcomplex⟩ := hi
    by_cases hflag : e.sign = true
    · obtain ⟨b, hb⟩ := Option.isSome_iff_exists.mp hin
      have hbold : b.addr < addr :=
        lt_of_lt_of_le (hold i.operand1 (by simp [BhInstruction.operands, hop, bhOperands]) b hb) haddr
      obtain ⟨seq, hseq, hrun⟩ := runList_expandSign (I := I) e hI hop hb hout hbold
        (fun hc => hcomplex (by simp [hb, hc]))
      refine ⟨i.toNone :: seq, addr + 3, by simp [Expander.expansion, hop, hflag, hseq], by omega, ?_⟩
      intro m l hl
      rw [runList_toNone, hrun m l (by omega)]
    · exact hstay (by simp [Expander.expansion, hop, hflag])
  · refine hstay ?_
    unfold Expander.expansion
    split <;> first | rfl | contradiction

theorem runList_expandAll (hI : I.Composite) {l : List BhInstruction} (hl : ∀ i ∈ l, i.Expandable)
    (hold : ∀ i ∈ l, i.Older n) (haddr : n ≤ addr) :
    ∃ l', e.expandAll addr l = some l' ∧ ∀ m m' : Mem V, (∀ loc : Loc, loc.1.addr < n → m' loc = m loc) →
      ∀ loc : Loc, loc.1.addr < n → runList I l' m' loc = runList I l m loc := by
  induction l generalizing addr with
  | nil => exact ⟨[], rfl, fun m m' h => h⟩
  | cons i l ih =>
    have hiold := hold i List.mem_cons_self
    obtain ⟨seq, addr', hseq, hle, hrun⟩ :=
      runList_expansion (I := I) e hI (hl i List.mem_cons_self) hiold haddr
    obtain ⟨l', hl', hrest⟩ := ih (fun j hj => hl j (List.mem_cons_of_mem i hj))
      (fun j hj => hold j (List.mem_cons_of_mem i hj)) (haddr.trans hle)
    refine ⟨seq ++ l', by simp [Expander.expandAll, hseq, hl'], fun m m' h loc hloc => ?_⟩
    rw [runList_append, runList_cons]
    refine hrest _ _ (fun k hk => ?_) loc hloc
    rw [hrun m' k hk, runWhole_older hiold h k hk]

/-- `expand` returns a list that means the same in every base older than its temporaries. -/
theorem runList_expand (hI : I.Composite) {l : List BhInstruction} (hl : ∀ i ∈ l, i.Expandable)
    (hold : ∀ i ∈ l, i.Older n) :
    ∃ l', e.expand n l = some l' ∧
      ∀ (m : Mem V) (loc : Loc), loc.1.addr < n → runList I l' m loc = runList I l m loc := by
  obtain ⟨l', hl', hrun⟩ := runList_expandAll e hI hl hold le_rfl
  rw [Expander.expand_eq]
  exact ⟨l', hl', fun m loc hloc => hrun m m (fun _ _ => rfl) loc hloc⟩

end Expand

/-! ## Integers -/

/-- The value of a constant, for constants that are integers. -/
def BhConstant.integer : BhConstant → ℤ
  | .int _ v => v
  | .float _ (some q) => q.num
  | .complex _ (some q) _ => q.num
  | _ => 0

/-- The operations that the expansions use, on integers. -/
def exactInterp : Interp ℤ where
  konst := BhConstant.integer
  ewise opcode types xs :=
    match opcode, xs with
    | .greater, [x, y] => if y < x then 1 else 0
    | .less, [x, y] => if x < y then 1 else 0
    | .equal, [x, y] => if x = y then 1 else 0
    | .divide, [x, y] => x / y
    | .power, [x, y] => x ^ y.toNat
    | _, _ => intInterp.ewise opcode types xs
  generate := intInterp.generate
  sweep := intInterp.sweep
  neutral := intInterp.neutral
  toIndex := intInterp.toIndex
  other opcode _ arrays idx :=
    match opcode, arrays, idx with
    | .matmul, [([_, m], xs), ([_, k], ys)], [r, q] =>
      ((List.range m).map fun j => xs.getD (r * m + j) 0 * ys.getD (j * k + q) 0).sum
    | _, _, _ => 0

theorem integer_of_bhGetInteger {c : BhConstant} (h : 0 ≤ bhGetInteger c) : c.integer = bhGetInteger c := by
  unfold bhGetInteger at h ⊢
  split at h
  · split_ifs at h ⊢ with hq
    · rfl
    · omega
  · split_ifs at h ⊢ with hq
    · rfl
    · omega
  · omega

theorem sign_eq_div (x : ℤ) : x.sign = x / (|x| + if |x| = 0 then 1 else 0) := by
  rcases lt_trichotomy x 0 with hx | rfl | hx
  · have hne : x ≠ 0 := hx.ne
    rw [Int.sign_eq_neg_one_of_neg hx, abs_of_neg hx, if_neg (by omega), add_zero, Int.ediv_neg,
      Int.ediv_self hne]
  · rfl
  · rw [Int.sign_eq_one_of_pos hx, abs_of_pos hx, if_neg hx.ne', add_zero, Int.ediv_self hx.ne']

theorem sign_eq_sub (x : ℤ) : x.sign = (if 0 < x then 1 else 0) - if x < 0 then 1 else 0 := by
  rcases lt_trichotomy x 0 with hx | rfl | hx
  · rw [Int.sign_eq_neg_one_of_neg hx, if_neg (by omega), if_pos hx]
    rfl
  · rfl
  · rw [Int.sign_eq_one_of_pos hx, if_pos hx, if_neg (by omega)]
    rfl

theorem exactInterp_composite : exactInterp.Composite where
  konst_zero type := by cases type <;> rfl
  konst_one type := by cases type <;> rfl
  identity _ _ := rfl
  add _ _ _ := rfl
  subtract _ _ _ := rfl
  multiply _ _ _ := rfl
  greater _ _ _ := rfl
  less _ _ _ := rfl
  equal _ _ _ := rfl
  absolute _ _ := rfl
  divide _ _ _ := rfl
  power _ x c h0 _ := by
    show x ^ c.integer.toNat = _
    rw [integer_of_bhGetInteger h0]
  sign _ type x := by
    show x.sign = _
    split
    · exact sign_eq_div x
    · exact sign_eq_sub x
  addReduce _ _ _ := rfl
  addReduce_neutral := rfl
  matmul _ _ _ _ _ _ _ _ _ _ := rfl

/-- Everything enabled; whatever `inject` does not set is a constant. -/
def allExpansions : Expander :=
  ⟨true, true, true, ⟨.none, ⟨none, 0, []⟩, ⟨none, 0, []⟩, ⟨none, 0, []⟩, .int .int64 7⟩⟩

def floats (addr : ℕ) : BhView := ⟨some ⟨addr, .float64, 2⟩, 0, [⟨2, 1⟩]⟩

/-- `y = x ** 3; x = sign(y)`. -/
def cubeThenSign : List BhInstruction :=
  [⟨.power, floats 1, floats 0, ⟨none, 0, []⟩, .float .float64 (some 3)⟩,
    ⟨.sign, floats 0, floats 1, ⟨none, 0, []⟩, .int .int64 0⟩]

theorem runList_expand_cubeThenSign : ∃ l', allExpansions.expand 2 cubeThenSign = some l' ∧
    runList exactInterp l' (fun _ => -2) (⟨1, .float64, 2⟩, 1) = -8 := by
  obtain ⟨l', hl', hrun⟩ := runList_expand (n := 2) allExpansions exactInterp_composite
    (l := cubeThenSign) (by decide) (by decide)
  refine ⟨l', hl', ?_⟩
  rw [hrun _ _ (by decide)]
  decide

/-- `z = sign(z)` on complex numbers. -/
def signInPlace : List BhInstruction :=
  [⟨.sign, ⟨some ⟨0, .complex64, 1⟩, 0, [⟨1, 1⟩]⟩, ⟨some ⟨0, .complex64, 1⟩, 0, [⟨1, 1⟩]⟩, ⟨none, 0, []⟩,
    .int .int64 0⟩]

/-- The expansion of a complex sign in place divides the divisor by itself. -/
theorem not_runList_expand_signInPlace : exactInterp.Composite ∧ (∀ i ∈ signInPlace, i.Older 1) ∧
    ¬ ∃ l', allExpansions.expand 1 signInPlace = some l' ∧ ∀ (m : Mem ℤ) (loc : Loc), loc.1.addr < 1 →
      runList exactInterp l' m loc = runList exactInterp signInPlace m loc := by
  refine ⟨exactInterp_composite, by decide, ?_⟩
  rintro ⟨l', hl', hrun⟩
  rw [Expander.expand_eq] at hl'
  obtain rfl := Option.some.inj hl'
  have h := hrun (fun _ => -2) (⟨0, .complex64, 1⟩, 0) (by decide)
  revert h
  decide

end Bohrium
