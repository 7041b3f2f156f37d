import Bohrium.Cpu.Visits
import Bohrium.Library.Intern
import Mathlib.Algebra.BigOperators.Group.List.Basic

/-! # Accumulate

The kernel of one accumulate over more than one dimension (`ve/cpu/templates/scan.nd.tpl`), with the
arguments as `Block::localize` numbers them (`ve/cpu/block.cpp`). -/
namespace Bohrium.Cpu
open Engine Strided Walk
set_option autoImplicit false

/-! ## The kernel -/

/-- An element of a base. -/
abbrev Cell := Option BhBase × ℤ

/-- A memory: what each element holds. -/
abbrev Mem (α : Type) := Cell → α

/-- The operator of an accumulate; `true` is `ADD`, `false` is `MULTIPLY`. -/
def scanOper {α : Type} [CommSemiring α] (add : Bool) (accu x : α) : α := if add then accu + x else accu * x

/-- `oper_neutral_element`. -/
def scanNeutral {α : Type} [CommSemiring α] (add : Bool) : α := if add then 0 else 1

section Loops
variable {α : Type} [CommSemiring α] (add : Bool) (inBase outBase : Option BhBase)

/-- The loop over the axis: the memory after it, and its writes. -/
def scanRow (inStep outStep : ℤ) : ℕ → α → ℤ → ℤ → Mem α → Mem α × List (Cell × α)
  | 0, _, _, _, m => (m, [])
  | n + 1, accu, pin, pout, m =>
    let accu := scanOper add accu (m (inBase, pin))
    let (m', ws) := scanRow inStep outStep n accu (pin + inStep) (pout + outStep)
      (Function.update m (outBase, pout) accu)
    (m', ((outBase, pout), accu) :: ws)

/-- The next coordinates, from the innermost dimension outwards: the axis is skipped, and a dimension that is
not at its end is the last one to change. The second component says that there was none. -/
def bump (axis : ℕ) : ℕ → List ℕ → List ℕ → List ℕ × Bool
  | j, n :: ns, c :: cs =>
    let (cs', more) := bump axis (j + 1) ns cs
    if more = false then (c :: cs', false)
    else if j = axis then (c :: cs', true)
    else if c + 1 < n then ((c + 1) :: cs', false)
    else (0 :: cs', true)
  | _, _, _ => ([], true)

/-- The loop over the rows. -/
def scanLoop (shape : List ℕ) (axis : ℕ) (inFirst outFirst : ℤ) (inDims outDims : List Dim) (inStep outStep : ℤ) :
    ℕ → ℕ → List ℕ → Mem α → Mem α × List (Cell × α)
  | 0, _, _, m => (m, [])
  | fuel + 1, cur, coord, m =>
    if cur < shape.prod then
      let shapeAxis := shape.getD axis 1
      let (m', ws) := scanRow add inBase outBase inStep outStep shapeAxis (scanNeutral add)
        (inFirst + dot inDims coord) (outFirst + dot outDims coord) m
      let (m'', ws') := scanLoop shape axis inFirst outFirst inDims outDims inStep outStep fuel (cur + shapeAxis)
        (bump axis 0 shape coord).1 m'
      (m'', ws ++ ws')
    else (m, [])

end Loops

/-- An accumulate instruction. -/
structure Accumulate where
  add : Bool
  axis : ℕ
  in1 : Engine.Operand
  out : Engine.Operand

namespace Accumulate
variable (k : Accumulate)

def shape : List ℕ := k.out.dims.map Dim.shape

/-- The constant with the axis. -/
def in2 : Engine.Operand := ⟨.scalarConst, none, 0, [⟨1, 1⟩]⟩

/-- The block of the instruction. -/
def block : Block where
  symbols
    | 0 => ⟨k.out.layout, k.out.start, k.out.dims⟩
    | 1 => ⟨k.in1.layout, k.in1.start, k.in1.dims⟩
    | _ => ⟨in2.layout, in2.start, in2.dims⟩
  contracted _ := false
  constant _ := k.axis
  tacs := [⟨.scan, if k.add then .add else .multiply, 0, 1, 2⟩]

/-- `args`, and the numbers of the axis, the input and the output among them. -/
def args : List Engine.Operand × List ℕ := Intern.internAll Engine.equivalent [] [in2, k.in1, k.out]

/-- The writes of the kernel. Of one element it is an identity, which is dropped where it has no effect
(`tac_transform`). The strides of the input are those of the third argument, and the strides of the output those
of the second. A kernel in which input and output have one name declares that name twice and does not compile. -/
def writes {α : Type} [CommSemiring α] (m : Mem α) : Option (List (Cell × α)) :=
  if k.in1.layout = .scalar then
    some (if k.in1 = k.out then [] else [((k.out.base, k.out.start), m (k.in1.base, k.in1.start))])
  else
    match k.block.template, k.args with
    | some .scanNd, ([_, arg1, arg2], [_, in1, out]) =>
      if in1 = out then none
      else
        let stepAxis := (arg1.dims[k.axis]?.map Dim.stride).getD 0
        some (scanLoop k.add k.in1.base k.out.base k.block.iterspace.shape k.axis k.in1.start k.out.start arg2.dims arg1.dims
          stepAxis stepAxis k.block.iterspace.shape.prod 0 (List.replicate k.block.iterspace.shape.length 0) m).2
    | _, _ => none

/-! ## What it is for -/

/-- The element of an operand at an index. -/
def cell (o : Engine.Operand) (idx : List ℕ) : Cell := (o.base, o.start + dot o.dims idx)

/-- The operator over a list. -/
def total {α : Type} [CommSemiring α] (xs : List α) : α := if k.add then xs.sum else xs.prod

/-- To every index of the output, the total of the input up to that index along the axis. -/
def accumulated {α : Type} [CommSemiring α] (m : Mem α) : List (Cell × α) :=
  (indices (k.shape.eraseIdx k.axis)).flatMap fun others => (List.range (k.shape.getD k.axis 1)).map fun i =>
    (cell k.out (others.insertIdx k.axis i),
      k.total ((List.range (i + 1)).map fun j => m (cell k.in1 (others.insertIdx k.axis j))))

/-- The instruction is well formed: two arrays of one shape of at least two dimensions, which are the same view
or have no element in common. -/
structure Valid : Prop where
  pos : ∀ n ∈ k.shape, 0 < n
  rank : 2 ≤ k.shape.length
  axis : k.axis < k.shape.length
  same : k.in1.dims.map Dim.shape = k.shape
  inLayout : k.in1.layout = determineLayout k.in1.dims
  outLayout : k.out.layout = determineLayout k.out.dims
  apart : k.in1 = k.out ∨ ∀ idx ∈ indices k.shape, ∀ idx' ∈ indices k.shape, cell k.out idx ≠ cell k.in1 idx'

/-- The kernel makes these writes, or they are in memory already. -/
def Accumulates (α : Type) [CommSemiring α] : Prop :=
  ∀ m : Mem α, ∃ ws, k.writes m = some ws ∧
    (ws = k.accumulated m ∨ ws = [] ∧ ∀ w ∈ k.accumulated m, m w.1 = w.2)

/-- Input and output are different views with the same stride in every dimension that is longer than one. -/
def Aligned : Prop :=
  k.in1 ≠ k.out ∧ ∀ d < k.shape.length, 1 < k.shape.getD d 1 →
    (k.in1.dims[d]?.map Dim.stride).getD 0 = (k.out.dims[d]?.map Dim.stride).getD 0

end Accumulate

/-! ## The coordinates -/

/-- The shape as the odometer has it: along the axis it stands still. -/
def widths (axis : ℕ) : ℕ → List ℕ → List ℕ
  | _, [] => []
  | j, n :: ns => (if j = axis then 1 else n) :: widths axis (j + 1) ns

/-- The odometer counts. -/
theorem bump_coords {axis : ℕ} {ns : List ℕ} (h : ∀ n ∈ ns, 0 < n) (j e : ℕ) :
    bump axis j ns (coords (widths axis j ns) e) =
      (coords (widths axis j ns) (e + 1), decide ((widths axis j ns).prod ∣ e + 1)) := by
  induction ns generalizing j with
  | nil => simp [bump, widths, coords]
  | cons n ns ih =>
    rw [List.forall_mem_cons] at h
    rw [widths, coords, bump, ih h.2 (j + 1), coords, List.prod_cons]
    generalize (widths axis (j + 1) ns).prod = p
    by_cases hd : p ∣ e + 1
    · have hdiv : ∀ w, (w * p ∣ e + 1) = (w ∣ e / p + 1) := by
        intro w
        rw [← Nat.succ_div_of_dvd hd, Nat.dvd_div_iff_mul_dvd hd, Nat.mul_comm]
      simp only [hdiv, Nat.succ_div_of_dvd hd, hd, decide_true, Bool.true_eq_false, if_false]
      generalize e / p = q
      by_cases hj : j = axis
      · simp [hj, Nat.mod_one]
      · have hmod : (q + 1) % n = (q % n + 1) % n := (Nat.mod_add_mod q n 1).symm
        have hlt : q % n < n := Nat.mod_lt q h.1
        simp only [hj, if_false, Nat.dvd_iff_mod_eq_zero, hmod]
        split
        · rename_i hc
          rw [Nat.mod_eq_of_lt hc]
          simp
        · have heq : q % n + 1 = n := by omega
          rw [heq, Nat.mod_self]
          simp
    · have hdvd : ∀ w, ¬ w * p ∣ e + 1 := by
        intro w hw
        exact hd ((Nat.dvd_mul_left p w).trans hw)
      simp only [hd, hdvd, Nat.succ_div_of_not_dvd hd, decide_false, if_true]

/-- The coordinates as the others and the axis. -/
theorem coords_widths {axis : ℕ} {ns : List ℕ} (j e : ℕ) (hlt : axis < ns.length) :
    coords (widths (j + axis) j ns) e = (coords (ns.eraseIdx axis) e).insertIdx axis 0 ∧
      (widths (j + axis) j ns).prod = (ns.eraseIdx axis).prod := by
  induction ns generalizing axis j with
  | nil => cases hlt
  | cons n ns ih =>
    cases axis with
    | zero =>
      have hrest : ∀ i, j < i → widths j i ns = ns := by
        clear ih hlt
        induction ns with
        | nil =>
          intro i _
          rfl
        | cons n ns ih' =>
          intro i hi
          rw [widths, if_neg (by omega), ih' (i + 1) (by omega)]
      rw [Nat.add_zero, widths, if_pos rfl, hrest (j + 1) (by omega), List.eraseIdx_cons_zero, List.insertIdx_zero, coords,
        Nat.mod_one, List.prod_cons, Nat.one_mul]
      exact ⟨rfl, rfl⟩
    | succ axis =>
      obtain ⟨h1, h2⟩ := ih (j + 1) (Nat.lt_of_succ_lt_succ hlt)
      have hj : j + (axis + 1) = j + 1 + axis := by omega
      rw [widths, if_neg (by omega), hj, List.eraseIdx_cons_succ, coords, coords, List.insertIdx_succ_cons, List.prod_cons,
        List.prod_cons, h1, h2]
      exact ⟨rfl, rfl⟩

/-! ## The loops -/

section Loops
variable {α : Type} [CommSemiring α] {add : Bool} {inBase outBase : Option BhBase} {inStep outStep : ℤ}

theorem scanRow_succ (n : ℕ) (accu : α) (pin pout : ℤ) (m : Mem α) :
    scanRow add inBase outBase inStep outStep (n + 1) accu pin pout m =
      let accu' := scanOper add accu (m (inBase, pin))
      let r := scanRow add inBase outBase inStep outStep n accu' (pin + inStep) (pout + outStep)
        (Function.update m (outBase, pout) accu')
      (r.1, ((outBase, pout), accu') :: r.2) := rfl

/-- The places a row is written to, whatever it reads. -/
theorem scanRow_cells (n : ℕ) (accu : α) (pin pout : ℤ) (m : Mem α) :
    (scanRow add inBase outBase inStep outStep n accu pin pout m).2.map Prod.fst =
      (List.range n).map fun i : ℕ => (outBase, pout + (i : ℤ) * outStep) := by
  induction n generalizing accu pin pout m with
  | zero => rfl
  | succ n ih =>
    simp only [scanRow_succ]
    rw [List.map_cons, ih, List.range_succ_eq_map, List.map_cons, List.map_map]
    congr 1
    · simp
    · apply List.map_congr_left
      intro i _
      simp only [Function.comp_def, Prod.mk.injEq, true_and]
      push_cast
      ring

/-- A row changes only what it is written to. -/
theorem scanRow_frame (n : ℕ) (accu : α) (pin pout : ℤ) (m : Mem α) {c : Cell}
    (hc : ∀ i < n, c ≠ (outBase, pout + (i : ℤ) * outStep)) :
    (scanRow add inBase outBase inStep outStep n accu pin pout m).1 c = m c := by
  induction n generalizing accu pin pout m with
  | zero => rfl
  | succ n ih =>
    simp only [scanRow_succ]
    rw [ih]
    · apply Function.update_of_ne
      simpa using hc 0 (Nat.succ_pos n)
    · intro i hi heq
      apply hc (i + 1) (Nat.succ_lt_succ hi)
      rw [heq, Prod.mk.injEq]
      refine ⟨rfl, ?_⟩
      push_cast
      ring

/-- The values of a row that does not write to what it has still to read. -/
theorem scanRow_writes (n : ℕ) (accu : α) (pin pout : ℤ) (m : Mem α)
    (hne : ∀ i < n, ∀ j < n, (outBase, pout + (i : ℤ) * outStep) ≠ (inBase, pin + (j : ℤ) * inStep)) :
    (scanRow add inBase outBase inStep outStep n accu pin pout m).2 = (List.range n).map fun i : ℕ =>
      ((outBase, pout + (i : ℤ) * outStep),
        ((List.range (i + 1)).map fun j : ℕ => m (inBase, pin + (j : ℤ) * inStep)).foldl (scanOper add) accu) := by
  induction n generalizing accu pin pout m with
  | zero => rfl
  | succ n ih =>
    have hshift : ∀ (p s : ℤ) (i : ℕ), p + s + i * s = p + ((i + 1 : ℕ) : ℤ) * s := by
      intro p s i
      push_cast
      ring
    simp only [scanRow_succ]
    rw [ih, List.range_succ_eq_map, List.map_cons, List.map_map]
    · congr 1
      · simp
      · apply List.map_congr_left
        intro i hi
        rw [List.mem_range] at hi
        simp only [Function.comp_def, hshift, Prod.mk.injEq, true_and]
        have hrange : List.range (i.succ + 1) = 0 :: (List.range (i + 1)).map Nat.succ := List.range_succ_eq_map
        have hfirst : pin + ((0 : ℕ) : ℤ) * inStep = pin := by simp
        rw [hrange, List.map_cons, List.foldl_cons, List.map_map, hfirst]
        congr 1
        apply List.map_congr_left
        intro j hj
        rw [List.mem_range] at hj
        have h0 := hne 0 (Nat.succ_pos n) (j + 1) (by omega)
        rw [Nat.cast_zero, zero_mul, add_zero] at h0
        exact Function.update_of_ne h0.symm _ _
    · intro i hi j hj
      rw [hshift, hshift]
      exact hne (i + 1) (Nat.succ_lt_succ hi) (j + 1) (Nat.succ_lt_succ hj)

variable {shape : List ℕ} {axis : ℕ} {inFirst outFirst : ℤ} {inDims outDims : List Dim}

/-- One turn of the loop over the rows. -/
theorem scanLoop_row (hpos : ∀ n ∈ shape, 0 < n) (hprod : shape.prod = (widths axis 0 shape).prod * shape.getD axis 1)
    (hn : 0 < shape.getD axis 1) {fuel e : ℕ} (he : e < (widths axis 0 shape).prod) (m : Mem α) :
    scanLoop add inBase outBase shape axis inFirst outFirst inDims outDims inStep outStep (fuel + 1)
        (e * shape.getD axis 1) (coords (widths axis 0 shape) e) m =
      let r := scanRow add inBase outBase inStep outStep (shape.getD axis 1) (scanNeutral add)
        (inFirst + dot inDims (coords (widths axis 0 shape) e)) (outFirst + dot outDims (coords (widths axis 0 shape) e)) m
      let rest := scanLoop add inBase outBase shape axis inFirst outFirst inDims outDims inStep outStep fuel
        ((e + 1) * shape.getD axis 1) (coords (widths axis 0 shape) (e + 1)) r.1
      (rest.1, r.2 ++ rest.2) := by
  have hlt : e * shape.getD axis 1 < shape.prod := by
    rw [hprod]
    exact Nat.mul_lt_mul_of_pos_right he hn
  rw [scanLoop, if_pos hlt, bump_coords hpos, Nat.succ_mul]

theorem scanLoop_done (hprod : shape.prod = (widths axis 0 shape).prod * shape.getD axis 1) {fuel : ℕ} (coord : List ℕ)
    (m : Mem α) :
    scanLoop add inBase outBase shape axis inFirst outFirst inDims outDims inStep outStep fuel
      ((widths axis 0 shape).prod * shape.getD axis 1) coord m = (m, []) := by
  cases fuel with
  | zero => rfl
  | succ fuel => rw [scanLoop, if_neg (by omega)]

/-- The places the rows are written to, whatever they read. -/
theorem scanLoop_cells (hpos : ∀ n ∈ shape, 0 < n) (hprod : shape.prod = (widths axis 0 shape).prod * shape.getD axis 1)
    (hn : 0 < shape.getD axis 1) {fuel e : ℕ} (he : e ≤ (widths axis 0 shape).prod)
    (hfuel : (widths axis 0 shape).prod ≤ e + fuel) (m : Mem α) :
    (scanLoop add inBase outBase shape axis inFirst outFirst inDims outDims inStep outStep fuel
        (e * shape.getD axis 1) (coords (widths axis 0 shape) e) m).2.map Prod.fst =
      (List.range' e ((widths axis 0 shape).prod - e)).flatMap fun e => (List.range (shape.getD axis 1)).map fun i : ℕ =>
        (outBase, outFirst + dot outDims (coords (widths axis 0 shape) e) + (i : ℤ) * outStep) := by
  induction fuel generalizing e m with
  | zero =>
    obtain rfl : e = (widths axis 0 shape).prod := by omega
    rw [scanLoop_done hprod]
    simp
  | succ fuel ih =>
    obtain he' | rfl := Nat.lt_or_eq_of_le he
    · have hlen : (widths axis 0 shape).prod - e = (widths axis 0 shape).prod - (e + 1) + 1 := by omega
      rw [scanLoop_row hpos hprod hn he', hlen, List.range'_succ, List.flatMap_cons, List.map_append, scanRow_cells,
        ih (by omega) (by omega)]
    · rw [scanLoop_done hprod]
      simp

/-- The writes of rows that do not write to what is read. -/
theorem scanLoop_writes (hpos : ∀ n ∈ shape, 0 < n) (hprod : shape.prod = (widths axis 0 shape).prod * shape.getD axis 1)
    (hn : 0 < shape.getD axis 1)
    (hne : ∀ e < (widths axis 0 shape).prod, ∀ e' < (widths axis 0 shape).prod, ∀ i < shape.getD axis 1,
      ∀ j < shape.getD axis 1, (outBase, outFirst + dot outDims (coords (widths axis 0 shape) e) + (i : ℤ) * outStep) ≠
        (inBase, inFirst + dot inDims (coords (widths axis 0 shape) e') + (j : ℤ) * inStep))
    {fuel e : ℕ} (he : e ≤ (widths axis 0 shape).prod) (hfuel : (widths axis 0 shape).prod ≤ e + fuel) (m m' : Mem α)
    (hm : ∀ e' < (widths axis 0 shape).prod, ∀ j < shape.getD axis 1,
      m' (inBase, inFirst + dot inDims (coords (widths axis 0 shape) e') + (j : ℤ) * inStep) =
        m (inBase, inFirst + dot inDims (coords (widths axis 0 shape) e') + (j : ℤ) * inStep)) :
    (scanLoop add inBase outBase shape axis inFirst outFirst inDims outDims inStep outStep fuel
        (e * shape.getD axis 1) (coords (widths axis 0 shape) e) m').2 =
      (List.range' e ((widths axis 0 shape).prod - e)).flatMap fun e => (List.range (shape.getD axis 1)).map fun i : ℕ =>
        ((outBase, outFirst + dot outDims (coords (widths axis 0 shape) e) + (i : ℤ) * outStep),
          ((List.range (i + 1)).map fun j : ℕ =>
            m (inBase, inFirst + dot inDims (coords (widths axis 0 shape) e) + (j : ℤ) * inStep)).foldl
              (scanOper add) (scanNeutral add)) := by
  induction fuel generalizing e m' with
  | zero =>
    obtain rfl : e = (widths axis 0 shape).prod := by omega
    rw [scanLoop_done hprod]
    simp
  | succ fuel ih =>
    obtain he' | rfl := Nat.lt_or_eq_of_le he
    · have hlen : (widths axis 0 shape).prod - e = (widths axis 0 shape).prod - (e + 1) + 1 := by omega
      rw [scanLoop_row hpos hprod hn he', hlen, List.range'_succ, List.flatMap_cons]
      simp only
      rw [ih (by omega) (by omega), scanRow_writes _ _ _ _ _ (fun i hi j hj => hne e he' e he' i hi j hj)]
      · congr 1
        apply List.map_congr_left
        intro i hi
        rw [List.mem_range] at hi
        congr 2
        apply List.map_congr_left
        intro j hj
        rw [List.mem_range] at hj
        exact hm e he' j (by omega)
      · intro e' he'' j hj
        rw [scanRow_frame]
        · exact hm e' he'' j hj
        · intro i hi
          exact (hne e he' e' he'' i hi j hj).symm
    · rw [scanLoop_done hprod]
      simp

end Loops

/-! ## The arguments -/

namespace Accumulate
variable {k : Accumulate}

theorem Valid.layouts (h : k.Valid) : k.in1.layout ≠ .scalarConst ∧ k.out.layout ≠ .scalarConst := by
  rw [h.inLayout, h.outLayout]
  constructor
  · obtain ⟨_, hl⟩ | ⟨_, hl | hl | hl⟩ := determineLayout_cases k.in1.dims <;> rw [hl] <;> decide
  · obtain ⟨_, hl⟩ | ⟨_, hl | hl | hl⟩ := determineLayout_cases k.out.dims <;> rw [hl] <;> decide

theorem equivalent_eq_false {a b : Engine.Operand} (h : a ≠ b) : Engine.equivalent a b = false := by
  rw [← Bool.not_eq_true]
  intro heq
  exact h (equivalent_iff.mp heq)

/-- Different views are numbered in the order axis, input, output. -/
theorem Valid.args_eq (h : k.Valid) (hne : k.in1 ≠ k.out) : k.args = ([in2, k.in1, k.out], [0, 1, 2]) := by
  have h1 : in2 ≠ k.in1 := fun heq => h.layouts.1 (congrArg Engine.Operand.layout heq).symm
  have h2 : in2 ≠ k.out := fun heq => h.layouts.2 (congrArg Engine.Operand.layout heq).symm
  simp [args, Intern.internAll, Intern.intern, List.findIdx?_cons, equivalent_eq_false h1, equivalent_eq_false h2,
    equivalent_eq_false hne]

/-- The same view has one number. -/
theorem Valid.args_same (h : k.Valid) (heq : k.in1 = k.out) : k.args = ([in2, k.in1], [0, 1, 1]) := by
  have h1 : in2 ≠ k.in1 := fun heq => h.layouts.1 (congrArg Engine.Operand.layout heq).symm
  have hself : Engine.equivalent k.in1 k.in1 = true := equivalent_iff.mpr rfl
  simp [args, Intern.internAll, Intern.intern, List.findIdx?_cons, equivalent_eq_false h1, ← heq, hself]

/-- The space of the block, and the template for it. -/
theorem Valid.template (h : k.Valid) (hS : k.shape.prod ≠ 1) :
    k.block.iterspace.shape = k.shape ∧ k.block.template = some .scanNd := by
  have hout : Full k.shape (k.block.symbols 0) := ⟨rfl, h.outLayout⟩
  have hin : Full k.shape (k.block.symbols 1) := ⟨h.same, h.inLayout⟩
  have hglobals : k.block.globals = k.block.symbols := by
    funext i
    simp [Block.globals, block]
  have hops : ∀ i ∈ [2, 1, 0], Full k.shape (k.block.symbols i) ∨ Single (k.block.symbols i) := by
    simp only [List.forall_mem_cons]
    exact ⟨Or.inr (Or.inl rfl), Or.inl hin, Or.inl hout, by simp⟩
  have hstep : ∀ it, updateIterspace k.block.symbols k.block.tacs it = [2, 1, 0].foldl (dominate k.block.symbols) it :=
    fun _ => rfl
  have hbegun : Begun k.shape ⟨.scalarTemp, []⟩ := Or.inl rfl
  have hspace : Space k.shape k.block.iterspace := by
    unfold Block.iterspace
    rw [hglobals, hstep, hstep]
    obtain ⟨h1, _⟩ := foldl_dominate hbegun hops
    exact (foldl_dominate h1 hops).2 (Or.inr ⟨0, by simp, hout⟩)
  unfold Space at hspace
  rw [if_neg hS] at hspace
  refine ⟨hspace.1, ?_⟩
  have hns : k.block.iterspace.layout ≠ .scalar := by
    obtain ⟨_, hl | hl | hl⟩ := hspace <;> rw [hl] <;> decide
  have hrank : k.shape.length ≠ 1 := by
    have := h.rank
    omega
  unfold Block.template
  simp only [hspace.1, hns, if_false]
  simp [block, Block.has, isArrayOp, isEwise, isReduction, hrank]

/-! ## When it accumulates -/

theorem foldl_scanOper {α : Type} [CommSemiring α] (k : Accumulate) (xs : List α) :
    xs.foldl (scanOper k.add) (scanNeutral k.add) = k.total xs := by
  unfold total scanNeutral
  cases hadd : k.add with
  | true =>
    simp only [if_true, List.sum_eq_foldl]
    rfl
  | false =>
    simp only [Bool.false_eq_true, if_false, List.prod_eq_foldl]
    rfl

theorem Valid.insert_mem (h : k.Valid) {e i : ℕ} (he : e < (k.shape.eraseIdx k.axis).prod) (hi : i < k.shape.getD k.axis 1) :
    (coords (k.shape.eraseIdx k.axis) e).insertIdx k.axis i ∈ indices k.shape := by
  apply (perm_insertIdx k.shape h.axis).mem_iff.mp
  rw [List.mem_flatMap]
  exact ⟨_, coords_mem he, List.mem_map.mpr ⟨i, List.mem_range.mpr hi, rfl⟩⟩

/-- Every index is one of a row. -/
theorem Valid.exists_row (h : k.Valid) {idx : List ℕ} (hidx : idx ∈ indices k.shape) :
    ∃ e < (k.shape.eraseIdx k.axis).prod, ∃ i < k.shape.getD k.axis 1,
      idx = (coords (k.shape.eraseIdx k.axis) e).insertIdx k.axis i := by
  have hmem := (perm_insertIdx k.shape h.axis).mem_iff.mpr hidx
  rw [← map_coords, List.flatMap_map, List.mem_flatMap] at hmem
  obtain ⟨e, he, hrow⟩ := hmem
  obtain ⟨i, hi, rfl⟩ := List.mem_map.mp hrow
  exact ⟨e, List.mem_range.mp he, i, List.mem_range.mp hi, rfl⟩

/-- The displacement along a row. -/
theorem Valid.dot_row (h : k.Valid) {dims : List Dim} (hlen : dims.length = k.shape.length) (e i : ℕ) :
    dot dims (coords (widths k.axis 0 k.shape) e) + i * ((dims[k.axis]?.map Dim.stride).getD 0) =
      dot dims ((coords (k.shape.eraseIdx k.axis) e).insertIdx k.axis i) := by
  have hw := (coords_widths 0 e h.axis).1
  rw [Nat.zero_add] at hw
  have haxis := h.axis
  have hcoords : (coords (k.shape.eraseIdx k.axis) e).length = k.shape.length - 1 := by
    rw [length_coords, List.length_eraseIdx_of_lt h.axis]
  rw [hw, dot_insertIdx _ _ (by omega) (by omega), dot_insertIdx _ _ (by omega) (by omega)]
  push_cast
  ring

theorem Valid.prod_rows (h : k.Valid) : (widths k.axis 0 k.shape).prod = (k.shape.eraseIdx k.axis).prod ∧
    k.shape.prod = (widths k.axis 0 k.shape).prod * k.shape.getD k.axis 1 ∧ 0 < k.shape.getD k.axis 1 ∧
      (widths k.axis 0 k.shape).prod ≤ k.shape.prod := by
  have hw := (coords_widths 0 0 h.axis).2
  rw [Nat.zero_add] at hw
  have haxis := h.axis
  have hget : k.shape.getD k.axis 1 = k.shape[k.axis] := by simp [haxis]
  have hprod : k.shape.prod = (widths k.axis 0 k.shape).prod * k.shape.getD k.axis 1 := by
    have hlen := (perm_insertIdx k.shape h.axis).length_eq
    rw [length_indices, List.length_flatMap] at hlen
    simp only [List.length_map, List.length_range, List.map_const', List.sum_replicate_nat, length_indices] at hlen
    rw [hw, hlen]
  have hn : 0 < k.shape.getD k.axis 1 := by
    rw [hget]
    exact h.pos _ (List.getElem_mem h.axis)
  refine ⟨hw, hprod, hn, ?_⟩
  rw [hprod]
  exact Nat.le_mul_of_pos_right _ hn

theorem Valid.not_scalar (h : k.Valid) (hS : k.shape.prod ≠ 1) : k.in1.layout ≠ .scalar := by
  intro hl
  rw [h.inLayout] at hl
  exact hS (h.same ▸ determineLayout_scalar hl)

/-- The writes of the kernel, for different views. -/
theorem Valid.writes_eq {α : Type} [CommSemiring α] (h : k.Valid) (hS : k.shape.prod ≠ 1) (hne : k.in1 ≠ k.out) (m : Mem α) :
    k.writes m = some (scanLoop k.add k.in1.base k.out.base k.shape k.axis k.in1.start k.out.start k.out.dims k.in1.dims
      ((k.in1.dims[k.axis]?.map Dim.stride).getD 0) ((k.in1.dims[k.axis]?.map Dim.stride).getD 0) k.shape.prod
      (0 * k.shape.getD k.axis 1) (coords (widths k.axis 0 k.shape) 0) m).2 := by
  have hl := h.not_scalar hS
  have hzero : coords (widths k.axis 0 k.shape) 0 = List.replicate k.shape.length 0 := by
    have hlen : (widths k.axis 0 k.shape).length = k.shape.length := by
      have hw := congrArg List.length (coords_widths 0 0 h.axis).1
      rw [Nat.zero_add, length_coords] at hw
      rw [hw, List.length_insertIdx_of_le_length, length_coords, List.length_eraseIdx_of_lt h.axis]
      · have := h.axis
        omega
      · rw [length_coords, List.length_eraseIdx_of_lt h.axis]
        have := h.axis
        omega
    rw [← hlen]
    generalize widths k.axis 0 k.shape = ns
    induction ns with
    | nil => rfl
    | cons n ns ih => rw [coords, ih, Nat.zero_div, Nat.zero_mod, List.length_cons, List.replicate_succ]
  obtain ⟨hshape, ht⟩ := h.template hS
  unfold writes
  rw [if_neg hl, ht, h.args_eq hne, hshape, hzero, Nat.zero_mul]
  rfl

/-- In place the kernel does not compile. -/
theorem Valid.writes_same {α : Type} [CommSemiring α] (h : k.Valid) (hS : k.shape.prod ≠ 1) (heq : k.in1 = k.out)
    (m : Mem α) : k.writes m = none := by
  unfold writes
  rw [if_neg (h.not_scalar hS), (h.template hS).2, h.args_same heq]

section Main
variable {α : Type} [CommSemiring α]

theorem Valid.length (h : k.Valid) : k.in1.dims.length = k.shape.length ∧ k.out.dims.length = k.shape.length := by
  constructor
  · rw [← h.same, List.length_map]
  · simp [shape]

/-- Strides that agree give both views the same displacements. -/
theorem Valid.aligned_iff (h : k.Valid) :
    k.Aligned ↔ k.in1 ≠ k.out ∧ ∀ idx ∈ indices k.shape, dot k.in1.dims idx = dot k.out.dims idx := by
  unfold Aligned
  rw [dot_eq_iff h.pos h.length.1 h.length.2]

theorem Valid.writes_of_aligned (h : k.Valid) (hS : k.shape.prod ≠ 1) (ha : k.Aligned) (m : Mem α) :
    k.writes m = some (k.accumulated m) := by
  obtain ⟨hne, hdot⟩ := h.aligned_iff.mp ha
  obtain ⟨hw, hprod, hn, hR⟩ := h.prod_rows
  -- the cells of a row, as the kernel has them
  have hout : ∀ e < (widths k.axis 0 k.shape).prod, ∀ i < k.shape.getD k.axis 1,
      (k.out.base, k.out.start + dot k.in1.dims (coords (widths k.axis 0 k.shape) e) +
        (i : ℤ) * ((k.in1.dims[k.axis]?.map Dim.stride).getD 0)) =
      cell k.out ((coords (k.shape.eraseIdx k.axis) e).insertIdx k.axis i) := by
    intro e he i hi
    rw [hw] at he
    unfold cell
    rw [add_assoc, h.dot_row h.length.1, hdot _ (h.insert_mem he hi)]
  have hin : ∀ e < (widths k.axis 0 k.shape).prod, ∀ i < k.shape.getD k.axis 1,
      (k.in1.base, k.in1.start + dot k.out.dims (coords (widths k.axis 0 k.shape) e) +
        (i : ℤ) * ((k.in1.dims[k.axis]?.map Dim.stride).getD 0)) =
      cell k.in1 ((coords (k.shape.eraseIdx k.axis) e).insertIdx k.axis i) := by
    intro e he i hi
    rw [hw] at he
    have hzero := hdot _ (h.insert_mem he hn)
    rw [← h.dot_row h.length.1, ← h.dot_row h.length.2, Nat.cast_zero, zero_mul, zero_mul, add_zero, add_zero] at hzero
    unfold cell
    rw [← hzero, add_assoc, h.dot_row h.length.1]
  have hapart := h.apart.resolve_left hne
  rw [h.writes_eq hS hne, scanLoop_writes h.pos hprod hn _ (Nat.zero_le _) (by omega) m m (fun _ _ _ _ => rfl)]
  · unfold accumulated
    rw [← map_coords, List.flatMap_map, ← hw, Nat.sub_zero, ← List.range_eq_range']
    congr 1
    apply List.flatMap_congr
    intro e he
    rw [List.mem_range] at he
    apply List.map_congr_left
    intro i hi
    rw [List.mem_range] at hi
    rw [hout e he i hi, foldl_scanOper]
    congr 2
    apply List.map_congr_left
    intro j hj
    rw [List.mem_range] at hj
    rw [hin e he j (by omega)]
  · intro e he e' he' i hi j hj
    rw [hout e he i hi, hin e' he' j hj]
    rw [hw] at he he'
    exact hapart _ (h.insert_mem he hi) _ (h.insert_mem he' hj)

/-- Where the kernel makes the right writes, the strides agree. -/
theorem Valid.aligned_of_writes (h : k.Valid) (hS : k.shape.prod ≠ 1) (hne : k.in1 ≠ k.out) (m : Mem α)
    (hws : k.writes m = some (k.accumulated m)) : k.Aligned := by
  obtain ⟨hw, hprod, hn, hR⟩ := h.prod_rows
  rw [h.writes_eq hS hne, Option.some.injEq] at hws
  have hcells := congrArg (List.map Prod.fst) hws
  rw [scanLoop_cells h.pos hprod hn (Nat.zero_le _) (by omega)] at hcells
  unfold accumulated at hcells
  rw [← map_coords, List.flatMap_map, ← hw, Nat.sub_zero, ← List.range_eq_range', List.map_flatMap] at hcells
  simp only [List.map_map] at hcells
  have hall := flatMap_map_inj hcells
  rw [h.aligned_iff]
  refine ⟨hne, ?_⟩
  intro idx hidx
  obtain ⟨e, he, i, hi, rfl⟩ := h.exists_row hidx
  rw [← hw] at he
  have hcell := hall e (List.mem_range.mpr he) i (List.mem_range.mpr hi)
  simp only [Function.comp_def, cell, Prod.mk.injEq, true_and] at hcell
  rw [add_assoc, h.dot_row h.length.1] at hcell
  omega

theorem Valid.writes_ne_nil (h : k.Valid) (hS : k.shape.prod ≠ 1) (hne : k.in1 ≠ k.out) (m : Mem α) :
    k.writes m ≠ some [] := by
  obtain ⟨hw, hprod, hn, hR⟩ := h.prod_rows
  intro hws
  rw [h.writes_eq hS hne, Option.some.injEq] at hws
  have hcells := congrArg (List.map Prod.fst) hws
  rw [scanLoop_cells h.pos hprod hn (Nat.zero_le _) (by omega)] at hcells
  have hlen := congrArg List.length hcells
  rw [List.length_flatMap] at hlen
  simp only [List.length_map, List.length_range, List.map_const', List.sum_replicate_nat, List.length_range',
    List.map_nil, List.length_nil, Nat.sub_zero, ← hprod] at hlen
  exact absurd hlen (zero_lt_prod h.pos).ne'

/-- One element. -/
theorem Valid.accumulates_one (h : k.Valid) (hS : k.shape.prod = 1) : k.Accumulates α := by
  intro m
  have hl : k.in1.layout = .scalar := by
    rw [h.inLayout]
    obtain ⟨_, hl⟩ | ⟨hne, _⟩ := determineLayout_cases k.in1.dims
    · exact hl
    · exact absurd (h.same ▸ hS) hne
  have hn : k.shape.getD k.axis 1 = 1 := by
    have haxis := h.axis
    have hget : k.shape.getD k.axis 1 = k.shape[k.axis] := by simp [haxis]
    rw [hget]
    exact eq_one_of_prod hS _ (List.getElem_mem haxis)
  have hothers : (k.shape.eraseIdx k.axis).prod = 1 := by
    apply List.prod_eq_one
    intro x hx
    exact eq_one_of_prod hS x (List.mem_of_mem_eraseIdx hx)
  obtain ⟨xs, hxs⟩ := List.length_eq_one_iff.mp ((length_indices (k.shape.eraseIdx k.axis)).trans hothers)
  have hmem : xs.insertIdx k.axis 0 ∈ indices k.shape := by
    apply (perm_insertIdx k.shape h.axis).mem_iff.mp
    rw [hxs, hn]
    simp
  have hzero := eq_zero_of_mem_indices hS hmem
  have htotal : ∀ x : α, k.total [x] = x := by
    intro x
    simp [total]
  have hacc : k.accumulated m = [((k.out.base, k.out.start), m (k.in1.base, k.in1.start))] := by
    unfold accumulated
    rw [hxs, hn]
    simp [cell, dot_eq_zero hzero, htotal]
  unfold writes
  rw [if_pos hl, hacc]
  by_cases heq : k.in1 = k.out
  · refine ⟨[], by rw [if_pos heq], Or.inr ⟨rfl, ?_⟩⟩
    simp [heq]
  · exact ⟨_, by rw [if_neg heq], Or.inl rfl⟩

/-- The kernel of an accumulate writes the totals along the axis exactly when there is only one element, or input
and output are different views whose strides agree wherever they matter. -/
theorem accumulates_iff (h : k.Valid) : k.Accumulates α ↔ k.shape.prod = 1 ∨ k.Aligned := by
  by_cases hS : k.shape.prod = 1
  · exact ⟨fun _ => Or.inl hS, fun _ => h.accumulates_one hS⟩
  · rw [or_iff_right hS]
    constructor
    · intro hacc
      obtain ⟨ws, hws, hcases⟩ := hacc (fun _ => 0)
      have hne : k.in1 ≠ k.out := by
        intro heq
        rw [h.writes_same hS heq] at hws
        cases hws
      obtain hws' | ⟨hnil, _⟩ := hcases
      · rw [hws'] at hws
        exact h.aligned_of_writes hS hne _ hws
      · -- there is at least one row
        have hacc := h.writes_ne_nil hS hne (fun _ => (0 : α))
        rw [hws, hnil] at hacc
        exact absurd rfl hacc
    · intro ha m
      exact ⟨_, h.writes_of_aligned hS ha m, Or.inl rfl⟩

end Main

/-- The rows of a matrix are accumulated into every other row of a larger one. -/
def intoEveryOtherRow : Accumulate where
  add := true
  axis := 1
  in1 := ⟨.contiguous, some ⟨1, .int64, 6⟩, 0, [⟨2, 3⟩, ⟨3, 1⟩]⟩
  out := ⟨.strided, some ⟨2, .int64, 12⟩, 0, [⟨2, 6⟩, ⟨3, 1⟩]⟩

theorem intoEveryOtherRow_valid : intoEveryOtherRow.Valid := by
  constructor
  · decide
  · decide
  · decide
  · rfl
  · decide
  · decide
  · right
    intro idx _ idx' _ heq
    simp [cell, intoEveryOtherRow] at heq

theorem accumulates_iff_intoEveryOtherRow : intoEveryOtherRow.Accumulates ℤ ↔
    intoEveryOtherRow.shape.prod = 1 ∨ intoEveryOtherRow.Aligned :=
  accumulates_iff intoEveryOtherRow_valid

/-- The second row goes to the place of a row that is not in the output. -/
theorem not_accumulates_intoEveryOtherRow : intoEveryOtherRow.Valid ∧ ¬ intoEveryOtherRow.Accumulates ℤ := by
  refine ⟨intoEveryOtherRow_valid, ?_⟩
  intro hacc
  obtain ⟨ws, hws, hcases⟩ := hacc (fun _ => 1)
  have hmade : (intoEveryOtherRow.writes fun _ => (1 : ℤ)).map (fun ws => ws.map fun w => w.1.2) =
      some [0, 1, 2, 3, 4, 5] := by decide
  rw [hws, Option.map_some, Option.some.injEq] at hmade
  obtain rfl | ⟨rfl, _⟩ := hcases
  · revert hmade
    decide
  · cases hmade

end Accumulate

end Bohrium.Cpu
