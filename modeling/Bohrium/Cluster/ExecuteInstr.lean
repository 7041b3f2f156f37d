import Bohrium.Cluster.RangeRun
import Bohrium.Cluster.ReduceRefines

/-! # The dispatch of an instruction on the cluster

`execute_instr` of `vem/cluster/exec.cpp`: the reductions it names, the system operations, and
`execute_regular` for all others. -/
namespace Bohrium.Cluster
open Strided Network
set_option autoImplicit false

/-- `execute_instr`: the tasks of process `g.myrank`, which has a local array for the global ones in `existing`.
A `BH_SYNC` then puts the local arrays one behind the other at the master. Chunks of different numbers of
dimensions have lengths that are never set. -/
def executeInstr (st : Stores) (g : Pgrid) (existing : BhBase → Bool) (i : BhInstruction) : Option (List Task) :=
  match reduceOperation i.opcode with
  | some operation => ufuncReduce st g i operation
  | none =>
    match i.opcode with
    | .discard | .free =>
      some ((i.operand0.base.toList.filter existing).map fun b => onBase i.opcode (arrayGetLocal st g b))
    | .sync => some (i.operand0.base.toList.map fun b => onBase .sync (arrayGetLocal st g b))
    | .none => some []
    | _ =>
      if ∀ v ∈ i.operands, v.base.isSome → v.dims.length = i.operand0.dims.length then executeRegular st g i else none

/-! ## Well-formed instructions -/

/-- The arrays lie inside their bases and have no negative stride; the output is injective and shares nothing
with an input. -/
structure Apart (i : BhInstruction) : Prop where
  output : i.operand0.base.isSome
  injective : i.operand0.Injective
  stride : ∀ v ∈ i.operands, v.base.isSome → ∀ d ∈ v.dims, 0 ≤ d.stride
  intp : ∀ v ∈ i.operands, v.base.isSome → ∀ n ∈ v.shape, n < 2 ^ 63
  inBase : ∀ v ∈ i.operands, v.base.isSome → v.InBase
  apart : ∀ v ∈ i.inputs, ¬ BhView.Overlap i.operand0 v

/-- The shapes that an operation is documented for. -/
def WellFormed (i : BhInstruction) : Prop :=
  match i.kind with
  | .system => True
  | .elementwise => ∃ b, Distributable i b
  | .generator => Apart i ∧ i.operand0.dims.length = 1
  | .reduction => ∃ b c, Reducible i b c
  | .accumulate => Apart i ∧ i.operand1.base.isSome ∧ i.operand1.shape = i.operand0.shape ∧ i.axis < i.operand0.shape.length
  | .gather | .scatter => Apart i ∧ (i.operand1.base.isSome ∧ i.operand1.shape = i.operand0.shape) ∧
      i.operand2.base.isSome ∧ i.operand2.shape = i.operand0.shape
  | .other => Apart i ∧ (i.operand1.base.isSome ∧ i.operand2.base.isSome) ∧
      ∃ n k m, i.operand0.shape = [n, m] ∧ i.operand1.shape = [n, k] ∧ i.operand2.shape = [k, m]

section
variable {V : Type}

/-- The elements of an index array are positions of the array they index. -/
def InRange (I : Interp V) (i : BhInstruction) (m : Mem V) : Prop :=
  i.kind = .gather ∨ i.kind = .scatter → ∀ idx ∈ indices i.operand2.shape,
    I.toIndex (load I i.constant i.operand2 idx m) < i.operand0.shape.prod

theorem inRange_of_kind {I : Interp V} {i : BhInstruction} {m : Mem V} (h : i.kind ≠ .gather ∧ i.kind ≠ .scatter) :
    InRange I i m := fun hk => absurd hk (not_or.mpr h)

/-- Exact arithmetic: what the engines rely on. -/
structure Exact (I : Interp V) : Prop where
  copies : Copies I
  counts : CountsOn I
  combines : ∀ opcode operation type, reduceOperation opcode = some operation → Combines I opcode operation type

/-- All processes together compute the instruction. -/
def Computes (I : Interp V) (st : Stores) (worldsize : ℕ) (i : BhInstruction) : Prop :=
  ∀ (existing : ℕ → BhBase → Bool) (mems : ℕ → Mem V) (m : Mem V), InRange I i m →
    (∀ b, gathered st worldsize mems b = contentsOf m b) →
    ∃ tasks : ℕ → List Task, (∀ r < worldsize, executeInstr st ⟨worldsize, r⟩ (existing r) i = some (tasks r)) ∧
      Ends I st worldsize tasks mems (runWhole I i m)

end

/-- Every well-formed instruction with the opcode is computed. -/
def Covered (opcode : BhOpcode) : Prop :=
  ∀ {V : Type} (I : Interp V), Exact I → ∀ (st : Stores) (worldsize : ℕ), 1 ≤ worldsize →
    ∀ i : BhInstruction, i.opcode = opcode → WellFormed i → Computes I st worldsize i

/-! ## What is computed -/

section Computed
variable {V : Type} {I : Interp V} {st : Stores} {worldsize : ℕ} {i : BhInstruction}

theorem computes_of_performs (hws : 1 ≤ worldsize) (h : ∀ existing : ℕ → BhBase → Bool, ∃ tasks events,
    (∀ r < worldsize, executeInstr st ⟨worldsize, r⟩ (existing r) i = some (tasks r)) ∧
      Performs I st worldsize tasks events (runWhole I i)) : Computes I st worldsize i := by
  intro existing mems m _ hm
  obtain ⟨tasks, events, hexec, hperf⟩ := h existing
  exact ⟨tasks, hexec, hperf.ends hws hm⟩

theorem computes_reduction (hI : Exact I) (hws : 1 ≤ worldsize) {operation : BhOpcode}
    (hop : reduceOperation i.opcode = some operation) {b c : BhBase} (h : Reducible i b c) : Computes I st worldsize i := by
  refine computes_of_performs hws fun existing => ?_
  obtain ⟨tasks, events, hexec, hperf⟩ :=
    exists_ufuncReduce hI.copies st hws hop h (hI.combines i.opcode operation b.type hop)
  refine ⟨tasks, events, fun r _ => ?_, hperf⟩
  rw [executeInstr, hop]
  exact hexec r

/-- The instructions that a process runs on its own. -/
def ownEvents (I : Interp V) (worldsize : ℕ) (insts : ℕ → List BhInstruction) : List (Event ℕ (Node V) (Message V)) :=
  (List.range worldsize).flatMap fun w => (insts w).map fun j => .act w (execInst I j)

theorem project_ownEvents (insts : ℕ → List BhInstruction) (r : ℕ) :
    (ownEvents I worldsize insts).flatMap (Event.project r) =
      if r < worldsize then ((insts r).map Task.inst).map (Task.action I) else [] := by
  unfold ownEvents
  rw [List.flatMap_assoc]
  simp only [project_acts]
  induction worldsize with
  | zero => rfl
  | succ n ih =>
    rw [List.range_succ, List.flatMap_append, ih, List.flatMap_singleton]
    by_cases hr : r < n
    · rw [if_pos hr, if_neg (by omega), if_pos (by omega), List.append_nil]
    · by_cases hn : n = r
      · rw [if_neg hr, if_pos hn, if_pos (by omega), List.nil_append, hn]
      · rw [if_neg hr, if_neg hn, if_neg (by omega), List.append_nil]

theorem proper_ownEvents (insts : ℕ → List BhInstruction) : ∀ e ∈ ownEvents I worldsize insts, e.Proper := by
  intro e he
  obtain ⟨w, _, he⟩ := List.mem_flatMap.mp he
  obtain ⟨j, _, rfl⟩ := List.mem_map.mp he
  trivial

theorem runEvents_ownEvents (insts : ℕ → List BhInstruction) (s : ℕ → Node V) (r : ℕ) :
    runEvents (ownEvents I worldsize insts) s r =
      if r < worldsize then { s r with mem := runList I (insts r) (s r).mem } else s r := by
  unfold ownEvents
  induction worldsize with
  | zero => rfl
  | succ n ih =>
    rw [List.range_succ, List.flatMap_append, List.flatMap_singleton, runEvents_append, runEvents_acts,
      Function.update_apply]
    by_cases hr : r = n
    · subst hr
      rw [if_pos rfl, if_pos (Nat.lt_succ_self r), ih, if_neg (lt_irrefl r)]
    · rw [if_neg hr, ih]
      by_cases hlt : r < n
      · rw [if_pos hlt, if_pos (by omega)]
      · rw [if_neg hlt, if_neg (by omega)]

theorem opcode_of_system {opcode : BhOpcode} (h : bhKind opcode = .system) :
    opcode = .discard ∨ opcode = .free ∨ opcode = .sync ∨ opcode = .none := by
  cases opcode <;> first | exact BhKind.noConfusion h | simp

/-- A system operation is passed on to the local array. -/
theorem executeInstr_system (hk : i.kind = .system) (g : Pgrid) (existing : BhBase → Bool) :
    ∃ insts : List BhInstruction, executeInstr st g existing i = some (insts.map Task.inst) ∧
      ∀ j ∈ insts, j.isSystem = true := by
  have hlocal : ∀ (opcode : BhOpcode) (bases : List BhBase), bhOpcodeIsSystem opcode = true →
      ∃ insts : List BhInstruction, (bases.map fun b => onBase opcode (arrayGetLocal st g b)) = insts.map Task.inst ∧
        ∀ j ∈ insts, j.isSystem = true := by
    intro opcode bases hsystem
    refine ⟨bases.map fun b => onBaseInst opcode (arrayGetLocal st g b), ?_, fun j hj => ?_⟩
    · rw [List.map_map]
      rfl
    · obtain ⟨b, _, rfl⟩ := List.mem_map.mp hj
      exact hsystem
  rcases opcode_of_system hk with hop | hop | hop | hop
  · obtain ⟨insts, heq, hsystem⟩ := hlocal .discard (i.operand0.base.toList.filter existing) rfl
    refine ⟨insts, ?_, hsystem⟩
    simp only [executeInstr, hop, reduceOperation, heq]
  · obtain ⟨insts, heq, hsystem⟩ := hlocal .free (i.operand0.base.toList.filter existing) rfl
    refine ⟨insts, ?_, hsystem⟩
    simp only [executeInstr, hop, reduceOperation, heq]
  · obtain ⟨insts, heq, hsystem⟩ := hlocal .sync i.operand0.base.toList rfl
    refine ⟨insts, ?_, hsystem⟩
    simp only [executeInstr, hop, reduceOperation, heq]
  · refine ⟨[], ?_, fun j hj => by cases hj⟩
    simp only [executeInstr, hop, reduceOperation, List.map_nil]

theorem runList_system {l : List BhInstruction} (h : ∀ j ∈ l, j.isSystem = true) (m : Mem V) : runList I l m = m := by
  induction l with
  | nil => rfl
  | cons j l ih =>
    rw [List.forall_mem_cons] at h
    rw [runList_cons, runWhole_system I h.1, ih h.2]

theorem computes_system (hws : 1 ≤ worldsize) (hk : i.kind = .system) : Computes I st worldsize i := by
  refine computes_of_performs hws fun existing => ?_
  have hlocal : ∀ r, ∃ insts : List BhInstruction,
      executeInstr st ⟨worldsize, r⟩ (existing r) i = some (insts.map Task.inst) ∧ ∀ j ∈ insts, j.isSystem = true :=
    fun r => executeInstr_system hk ⟨worldsize, r⟩ (existing r)
  choose insts hexec hsystem using hlocal
  refine ⟨fun r => (insts r).map Task.inst, ownEvents I worldsize insts, fun r _ => hexec r, fun r => ?_,
    proper_ownEvents insts, fun s m hs => ⟨?_, fun r x hx => Or.inl ?_⟩⟩
  · exact (project_ownEvents insts r).symm
  · have hsame : runWhole I i m = m := by
      unfold runWhole wholeStores
      rw [hk]
      rfl
    rw [hsame]
    intro b r k hr hk
    show (runEvents _ s r).mem _ = _
    rw [runEvents_ownEvents, if_pos hr, runList_system (hsystem r)]
    exact hs b r k hr hk
  · rw [runEvents_ownEvents] at hx
    split_ifs at hx
    · exact hx
    · exact hx

/-- What is left to `execute_regular`. -/
theorem executeInstr_regular {g : Pgrid} {existing : BhBase → Bool} (hop : reduceOperation i.opcode = none)
    (hk : i.kind ≠ .system) (hdims : ∀ v ∈ i.operands, v.base.isSome → v.dims.length = i.operand0.dims.length) :
    executeInstr st g existing i = executeRegular st g i := by
  unfold executeInstr
  rw [hop]
  dsimp only
  split
  · rename_i heq
    exact absurd (show bhKind i.opcode = .system by rw [heq]; rfl) hk
  · rename_i heq
    exact absurd (show bhKind i.opcode = .system by rw [heq]; rfl) hk
  · rename_i heq
    exact absurd (show bhKind i.opcode = .system by rw [heq]; rfl) hk
  · rename_i heq
    exact absurd (show bhKind i.opcode = .system by rw [heq]; rfl) hk
  · exact if_pos hdims

theorem computes_elementwise (hI : Exact I) (hws : 1 ≤ worldsize) {b : BhBase} (h : Distributable i b) :
    Computes I st worldsize i := by
  refine computes_of_performs hws fun existing => ?_
  obtain ⟨tasks, events, hplan⟩ := exists_plan hI.copies st hws h
  have hop : reduceOperation i.opcode = none := by
    cases hred : reduceOperation i.opcode with
    | none => rfl
    | some operation =>
      have hkind : i.kind = .reduction := (kind_of_reduceOperation hred).1
      rw [h.kind] at hkind
      cases hkind
  refine ⟨tasks, events, fun r _ => ?_, hplan.performs⟩
  rw [executeInstr_regular hop (by rw [h.kind]; exact BhKind.noConfusion) fun v hv hsome => ?_]
  · exact hplan.execute r
  · have hshape := congrArg List.length (h.shape_operands v hv hsome)
    rwa [BhView.shape, BhView.shape, List.length_map, List.length_map] at hshape

theorem computes_range (hI : Exact I) (hws : 1 ≤ worldsize) {b : BhBase} {d : Dim} (h : Countable i b d) :
    Computes I st worldsize i := by
  refine computes_of_performs hws fun existing => ?_
  obtain ⟨tasks, events, hplan⟩ := exists_rangePlan hI.counts st hws h
  have hkind : i.kind = .generator := by
    rw [BhInstruction.kind, h.opcode]
    rfl
  refine ⟨tasks, events, fun r _ => ?_, hplan.performs⟩
  rw [executeInstr_regular (by rw [h.opcode]; rfl) (by rw [hkind]; exact BhKind.noConfusion) fun v hv _ => ?_]
  · exact hplan.execute r
  · rw [h.operands_eq, List.mem_singleton] at hv
    rw [hv]

/-- Processes that run one instruction each end with the local arrays that it leaves. -/
theorem Computes.contents (h : Computes I st worldsize i) {insts : ℕ → BhInstruction}
    (hexec : ∀ r < worldsize, executeInstr st ⟨worldsize, r⟩ (fun _ => true) i = some [.inst (insts r)])
    {mems : ℕ → Mem V} {m : Mem V} (hin : InRange I i m) (hm : ∀ b, gathered st worldsize mems b = contentsOf m b)
    (b : BhBase) : gathered st worldsize (fun r => runWhole I (insts r) (mems r)) b = contentsOf (runWhole I i m) b := by
  obtain ⟨tasks, htasks, k, hends⟩ := h (fun _ _ => true) mems m hin hm
  have hprog : ∀ r, r < worldsize → tasks r = [.inst (insts r)] := fun r hr =>
    Option.some.inj ((htasks r hr).symm.trans (hexec r hr))
  have hstart : cluster I worldsize tasks mems = start (ownEvents I worldsize fun r => [insts r]) fun r => ⟨mems r, []⟩ := by
    refine Net.ext (funext fun r => ?_) rfl rfl
    show (if r < worldsize then (tasks r).map (Task.action I) else []) = _ 
    refine Eq.trans ?_ (project_ownEvents _ r).symm
    split_ifs with hr
    · rw [hprog r hr]
      rfl
    · rfl
  obtain ⟨n, hn⟩ := runs_start (proper_ownEvents (I := I) fun r => [insts r]) fun r => (⟨mems r, []⟩ : Node V)
  rw [← hstart] at hn
  rw [← ((hends n _ hn).2.2 (step_start_nil _)).2.2 b]
  unfold gathered
  refine List.flatMap_congr fun r hr => ?_
  rw [List.mem_range] at hr
  show _ = (List.range _).map fun k : ℕ => (runEvents (ownEvents I worldsize fun r => [insts r]) _ r).mem _
  rw [runEvents_ownEvents, if_pos hr]
  rfl

end Computed

/-! ## What is not computed -/

/-- The opcodes that `execute_instr` sends chunk by chunk although their elements depend on others or on their
position. -/
def uncovered : List BhOpcode :=
  [.logicalXorReduce, .bitwiseXorReduce, .random, .addAccumulate, .multiplyAccumulate, .gather, .scatter, .matmul]

/-- A Boolean operation on numbers that are zero or not. -/
def natLogical (op : Bool → Bool → Bool) (x y : ℕ) : ℕ := (op (decide (x ≠ 0)) (decide (y ≠ 0))).toNat

theorem assoc_natLogical (op : Bool → Bool → Bool) (h : ∀ p q r, op (op p q) r = op p (op q r)) (x y z : ℕ) :
    natLogical op (natLogical op x y) z = natLogical op x (natLogical op y z) := by
  have hnat : ∀ p : Bool, decide (p.toNat ≠ 0) = p := by decide
  unfold natLogical
  rw [hnat, hnat, h]

theorem comm_natLogical (op : Bool → Bool → Bool) (h : ∀ p q, op p q = op q p) (x y : ℕ) :
    natLogical op x y = natLogical op y x := by
  unfold natLogical
  rw [h]

/-- Binary operations on natural numbers. -/
def natOperation : BhOpcode → ℕ → ℕ → ℕ
  | .add, x, y => x + y
  | .multiply, x, y => x * y
  | .minimum, x, y => min x y
  | .maximum, x, y => max x y
  | .logicalAnd, x, y => natLogical (· && ·) x y
  | .logicalOr, x, y => natLogical (· || ·) x y
  | .logicalXor, x, y => natLogical xor x y
  | .bitwiseAnd, x, y => x &&& y
  | .bitwiseOr, x, y => x ||| y
  | .bitwiseXor, x, y => x ^^^ y
  | _, _, _ => 0

/-- The binary operation of a sweep. -/
def sweepOperation (opcode : BhOpcode) : BhOpcode :=
  match opcode with
  | .addAccumulate => .add
  | .multiplyAccumulate => .multiply
  | .logicalXorReduce => .logicalXor
  | .bitwiseXorReduce => .bitwiseXor
  | _ => (reduceOperation opcode).getD .none

/-- Exact natural numbers; `BH_RANDOM` gives the position. -/
def natInterp : Interp ℕ where
  konst c := c.int64.toNat
  ewise opcode _ xs :=
    match xs with
    | [x] => x
    | [x, y] => natOperation opcode x y
    | _ => 0
  generate _ _ _ k := k
  sweep opcode _ := natOperation (sweepOperation opcode)
  neutral opcode := if opcode = .multiplyReduce then 1 else 0
  toIndex := id
  other _ _ arrays idx :=
    match arrays, idx with
    | [([_, k], xs), ([_, m], ys)], [r, c] => ((List.range k).map fun t => xs.getD (r * k + t) 0 * ys.getD (t * m + c) 0).sum
    | _, _ => 0

theorem exact_natInterp : Exact natInterp where
  copies _ _ := rfl
  counts _ _ _ _ := rfl
  combines opcode operation type h := by
    cases opcode <;> first | (cases h; done) | skip
    all_goals obtain rfl := Option.some.inj h
    · exact ⟨⟨Nat.add_assoc⟩, ⟨Nat.add_comm⟩, fun _ _ => rfl⟩
    · exact ⟨⟨Nat.mul_assoc⟩, ⟨Nat.mul_comm⟩, fun _ _ => rfl⟩
    · exact ⟨⟨Nat.min_assoc⟩, ⟨Nat.min_comm⟩, fun _ _ => rfl⟩
    · exact ⟨⟨Nat.max_assoc⟩, ⟨Nat.max_comm⟩, fun _ _ => rfl⟩
    · exact ⟨⟨assoc_natLogical (· && ·) Bool.and_assoc⟩, ⟨comm_natLogical (· && ·) Bool.and_comm⟩, fun _ _ => rfl⟩
    · exact ⟨⟨Nat.and_assoc⟩, ⟨Nat.and_comm⟩, fun _ _ => rfl⟩
    · exact ⟨⟨assoc_natLogical (· || ·) Bool.or_assoc⟩, ⟨comm_natLogical (· || ·) Bool.or_comm⟩, fun _ _ => rfl⟩
    · exact ⟨⟨Nat.or_assoc⟩, ⟨Nat.or_comm⟩, fun _ _ => rfl⟩

/-! ## Arrays by their cells -/

/-- The memory of one process: the cells of some bases. -/
def memory (cells : List (BhBase × List ℕ)) : Mem ℕ := fun l =>
  ((cells.find? fun c => c.1 == l.1).map fun c => c.2.getD l.2.toNat 0).getD 0

/-- The same cells on all processes. -/
def scatter (st : Stores) (worldsize : ℕ) (cells : List (BhBase × List ℕ)) (r : ℕ) : Mem ℕ := fun l =>
  ((cells.find? fun c => st.ofLocal c.1 == l.1.addr).map fun c =>
    c.2.getD (r * (c.1.nelem / worldsize) + l.2.toNat) 0).getD 0

theorem gathered_scatter (st : Stores) {worldsize : ℕ} (hws : 1 ≤ worldsize) (cells : List (BhBase × List ℕ)) (b : BhBase) :
    gathered st worldsize (scatter st worldsize cells) b = contentsOf (memory cells) b := by
  refine (scattered_iff hws).mp (fun b r k _ _ => ?_) b
  have hfind : (cells.find? fun c => st.ofLocal c.1 == st.ofLocal b) = cells.find? fun c => c.1 == b := by
    congr 1
    funext c
    by_cases hc : c.1 = b
    · simp [hc]
    · have hne : st.ofLocal c.1 ≠ st.ofLocal b := fun heq => hc (st.local_inj _ _ heq)
      rw [beq_false_of_ne hc, beq_false_of_ne hne]
  show ((cells.find? fun c => st.ofLocal c.1 == st.ofLocal b).map _).getD 0 = ((cells.find? fun c => c.1 == b).map _).getD 0
  rw [hfind]
  cases hcell : cells.find? fun c => c.1 == b with
  | none => rfl
  | some c =>
    have hbase : c.1 = b := by simpa using List.find?_some hcell
    simp only [Option.map_some, Option.getD_some, hbase, Int.toNat_natCast]

/-! ## Instructions that go wrong -/

theorem not_computes {i : BhInstruction} {worldsize : ℕ} (hws : 1 ≤ worldsize) {cells : List (BhBase × List ℕ)}
    {insts : ℕ → BhInstruction} (hin : InRange natInterp i (memory cells))
    (hexec : ∀ r < worldsize, executeInstr plainStores ⟨worldsize, r⟩ (fun _ => true) i = some [.inst (insts r)])
    {b : BhBase} (hne : gathered plainStores worldsize (fun r => runWhole natInterp (insts r) (scatter plainStores worldsize
      cells r)) b ≠ contentsOf (runWhole natInterp i (memory cells)) b) : ¬ Computes natInterp plainStores worldsize i :=
  fun h => hne (h.contents hexec hin (gathered_scatter plainStores hws cells) b)

theorem not_covered {i : BhInstruction} {worldsize : ℕ} (hws : 1 ≤ worldsize) (hwf : WellFormed i)
    (h : ¬ Computes natInterp plainStores worldsize i) : ¬ Covered i.opcode :=
  fun hc => h (hc natInterp exact_natInterp plainStores worldsize hws i rfl hwf)

/-- The local instruction for the two elements of a process. -/
def boxInst (worldsize : ℕ) (i : BhInstruction) (r : ℕ) : BhInstruction :=
  localInst i (chunksAt plainStores ⟨worldsize, r⟩ i.operands [2 * r] [2])

/-- An array of four elements. -/
def four (addr : ℕ) : BhBase := ⟨addr, .uint64, 4⟩

def fourView (addr : ℕ) : BhView := ⟨some (four addr), 0, [⟨4, 1⟩]⟩

def randomFour : BhInstruction := ⟨.random, fourView 0, noView, noView, .r123 0 7⟩

theorem apart_of_four {i : BhInstruction} (h : i.operand0 = fourView 0)
    (hin : ∀ v ∈ i.inputs, v = noView ∨ v = fourView 1 ∨ v = fourView 2) (hop : bhOperands i.opcode ≠ 0) : Apart i := by
  have hall : ∀ v ∈ i.operands, v.base.isSome → v = fourView 0 ∨ v = fourView 1 ∨ v = fourView 2 := by
    intro v hv hsome
    rw [BhInstruction.operands_eq_cons hop, List.mem_cons] at hv
    rcases hv with rfl | hv
    · exact Or.inl h
    · rcases hin v hv with rfl | hv
      · cases hsome
      · exact Or.inr hv
  refine ⟨?_, ?_, fun v hv hs => ?_, fun v hv hs => ?_, fun v hv hs => ?_, fun v hv => ?_⟩
  · rw [h]; rfl
  · rw [h]; decide
  · rcases hall v hv hs with rfl | rfl | rfl <;> decide
  · rcases hall v hv hs with rfl | rfl | rfl <;> decide
  · rcases hall v hv hs with rfl | rfl | rfl <;> exact ⟨_, rfl, by decide⟩
  · rw [h]
    rcases hin v hv with rfl | rfl | rfl <;> decide

theorem wellFormed_randomFour : WellFormed randomFour := ⟨apart_of_four rfl (by decide) (by decide), rfl⟩

/-- The second process counts from zero again. -/
theorem not_computes_randomFour : ¬ Computes natInterp plainStores 2 randomFour :=
  @not_computes randomFour 2 (by decide) [] (boxInst 2 randomFour) (inRange_of_kind (by decide)) (by decide +kernel) (four 0)
    (by decide +kernel)

def accumulateFour (opcode : BhOpcode) : BhInstruction := ⟨opcode, fourView 0, fourView 1, noView, .int .int64 0⟩

theorem wellFormed_accumulateFour {opcode : BhOpcode} (h : opcode = .addAccumulate ∨ opcode = .multiplyAccumulate) :
    WellFormed (accumulateFour opcode) := by
  rcases h with rfl | rfl <;> exact ⟨apart_of_four rfl (by decide) (by decide), rfl, rfl, by decide⟩

/-- The second process begins a new prefix. -/
theorem not_computes_accumulateFour {opcode : BhOpcode} (h : opcode = .addAccumulate ∨ opcode = .multiplyAccumulate) :
    ¬ Computes natInterp plainStores 2 (accumulateFour opcode) := by
  rcases h with rfl | rfl
  · exact @not_computes _ 2 (by decide) [(four 1, [1, 2, 3, 4])] (boxInst 2 (accumulateFour .addAccumulate))
      (inRange_of_kind (by decide)) (by decide +kernel) (four 0) (by decide +kernel)
  · exact @not_computes _ 2 (by decide) [(four 1, [1, 2, 3, 4])] (boxInst 2 (accumulateFour .multiplyAccumulate))
      (inRange_of_kind (by decide)) (by decide +kernel) (four 0) (by decide +kernel)

def reducePair (opcode : BhOpcode) : BhInstruction :=
  ⟨opcode, ⟨some ⟨0, .bool, 1⟩, 0, [⟨1, 1⟩]⟩, ⟨some ⟨1, .bool, 2⟩, 0, [⟨2, 1⟩]⟩, noView, .int .int64 0⟩

theorem wellFormed_reducePair {opcode : BhOpcode} (h : opcode = .logicalXorReduce ∨ opcode = .bitwiseXorReduce) :
    WellFormed (reducePair opcode) := by
  have hreducible : Reducible (reducePair .logicalXorReduce) ⟨0, .bool, 1⟩ ⟨1, .bool, 2⟩ :=
    ⟨rfl, rfl, rfl, by decide, by decide, by decide, by decide, by decide, fun _ => by decide, by decide, by decide,
      ⟨_, rfl, by decide⟩, ⟨_, rfl, by decide⟩⟩
  rcases h with rfl | rfl
  · exact ⟨_, _, hreducible⟩
  · exact ⟨_, _, hreducible.output, hreducible.input, hreducible.type, hreducible.axis, hreducible.shape,
      hreducible.positive, hreducible.intp, hreducible.stride, hreducible.outStride, hreducible.injective,
      hreducible.apart, hreducible.outInBase, hreducible.inBase⟩

/-- The chunk has the length of the output: one element of the input. -/
theorem not_computes_reducePair {opcode : BhOpcode} (h : opcode = .logicalXorReduce ∨ opcode = .bitwiseXorReduce) :
    ¬ Computes natInterp plainStores 1 (reducePair opcode) := by
  rcases h with rfl | rfl
  · exact @not_computes _ 1 (by decide) [(⟨1, .bool, 2⟩, [1, 1])] (fun _ => localInst (reducePair .logicalXorReduce)
      (chunksAt plainStores ⟨1, 0⟩ (reducePair .logicalXorReduce).operands [0] [1])) (inRange_of_kind (by decide))
      (by decide +kernel) ⟨0, .bool, 1⟩ (by decide +kernel)
  · exact @not_computes _ 1 (by decide) [(⟨1, .bool, 2⟩, [1, 1])] (fun _ => localInst (reducePair .bitwiseXorReduce)
      (chunksAt plainStores ⟨1, 0⟩ (reducePair .bitwiseXorReduce).operands [0] [1])) (inRange_of_kind (by decide))
      (by decide +kernel) ⟨0, .bool, 1⟩ (by decide +kernel)

def indexFour (opcode : BhOpcode) : BhInstruction := ⟨opcode, fourView 0, fourView 1, fourView 2, .int .int64 0⟩

theorem wellFormed_indexFour {opcode : BhOpcode} (h : opcode = .gather ∨ opcode = .scatter) :
    WellFormed (indexFour opcode) := by
  rcases h with rfl | rfl <;> exact ⟨apart_of_four rfl (by decide) (by decide), ⟨rfl, rfl⟩, rfl, rfl⟩

/-- A process has no other part than its own to index. -/
theorem not_computes_indexFour {opcode : BhOpcode} (h : opcode = .gather ∨ opcode = .scatter) :
    ¬ Computes natInterp plainStores 2 (indexFour opcode) := by
  rcases h with rfl | rfl
  · exact @not_computes _ 2 (by decide) [(four 1, [5, 6, 7, 8]), (four 2, [2, 3, 0, 1])] (boxInst 2 (indexFour .gather))
      (fun _ => by decide +kernel) (by decide +kernel) (four 0) (by decide +kernel)
  · exact @not_computes _ 2 (by decide) [(four 1, [5, 6, 7, 8]), (four 2, [2, 3, 0, 1])] (boxInst 2 (indexFour .scatter))
      (fun _ => by decide +kernel) (by decide +kernel) (four 0) (by decide +kernel)

def square (addr : ℕ) : BhView := ⟨some (four addr), 0, [⟨2, 2⟩, ⟨2, 1⟩]⟩

def matmulSquare : BhInstruction := ⟨.matmul, square 0, square 1, square 2, .int .int64 0⟩

theorem wellFormed_matmulSquare : WellFormed matmulSquare := by
  refine ⟨⟨rfl, by decide, by decide, by decide, fun v hv _ => ?_, by decide⟩, ⟨rfl, rfl⟩, 2, 2, 2, rfl, rfl, rfl⟩
  have hv : v = square 0 ∨ v = square 1 ∨ v = square 2 := by
    simpa [matmulSquare, BhInstruction.operands, bhOperands] using hv
  rcases hv with rfl | rfl | rfl <;> exact ⟨_, rfl, by decide⟩

/-- A process multiplies a row by a row. -/
theorem not_computes_matmulSquare : ¬ Computes natInterp plainStores 2 matmulSquare :=
  @not_computes _ 2 (by decide) [(four 1, [1, 2, 3, 4]), (four 2, [1, 0, 0, 1])]
    (fun r => localInst matmulSquare (chunksAt plainStores ⟨2, r⟩ matmulSquare.operands [r, 0] [1, 2]))
    (inRange_of_kind (by decide)) (by decide +kernel) (four 0) (by decide +kernel)

/-! ## The instruction set -/

/-- The opcodes by what becomes of them. -/
theorem covered_cases {opcode : BhOpcode} (hext : ∀ id, opcode ≠ .ext id) (h : opcode ∉ uncovered) :
    bhKind opcode = .system ∨ bhKind opcode = .elementwise ∨ opcode = .range ∨
      ∃ operation, bhKind opcode = .reduction ∧ reduceOperation opcode = some operation := by
  cases opcode <;> first
    | exact Or.inl rfl
    | exact Or.inr (Or.inl rfl)
    | exact Or.inr (Or.inr (Or.inl rfl))
    | exact Or.inr (Or.inr (Or.inr ⟨_, rfl, rfl⟩))
    | exact absurd rfl (hext _)
    | exact absurd (by decide) h

theorem Apart.countable {i : BhInstruction} (h : Apart i) (hop : i.opcode = .range) (hdims : i.operand0.dims.length = 1) :
    ∃ b d, Countable i b d := by
  obtain ⟨b, hb⟩ := Option.isSome_iff_exists.mp h.output
  obtain ⟨d, hd⟩ := List.length_eq_one_iff.mp hdims
  have hmem : i.operand0 ∈ i.operands := BhInstruction.operand0_mem (by rw [hop]; decide)
  refine ⟨b, d, hop, hb, hd, h.intp _ hmem h.output d.shape ?_, h.stride _ hmem h.output d ?_, h.injective,
    h.inBase _ hmem h.output⟩
  · rw [BhView.shape, hd]
    exact List.mem_singleton_self _
  · rw [hd]
    exact List.mem_singleton_self _

theorem covered_of_notMem {opcode : BhOpcode} (hext : ∀ id, opcode ≠ .ext id) (h : opcode ∉ uncovered) : Covered opcode := by
  intro V I hI st worldsize hws i hop hwf
  subst hop
  unfold WellFormed BhInstruction.kind at hwf
  rcases covered_cases hext h with hk | hk | hop | ⟨operation, hk, hop⟩
  · exact computes_system hws hk
  · rw [hk] at hwf
    obtain ⟨b, hb⟩ := hwf
    exact computes_elementwise hI hws hb
  · rw [hop] at hwf
    obtain ⟨b, d, hc⟩ := Apart.countable hwf.1 hop hwf.2
    exact computes_range hI hws hc
  · rw [hk] at hwf
    obtain ⟨b, c, hr⟩ := hwf
    exact computes_reduction hI hws hop hr

theorem not_covered_of_mem {opcode : BhOpcode} (h : opcode ∈ uncovered) : ¬ Covered opcode := by
  have hreduce : ∀ op, op = .logicalXorReduce ∨ op = .bitwiseXorReduce → ¬ Covered op := by
    intro op hop
    exact not_covered (by decide) (wellFormed_reducePair hop) (not_computes_reducePair hop)
  have haccumulate : ∀ op, op = .addAccumulate ∨ op = .multiplyAccumulate → ¬ Covered op := by
    intro op hop
    exact not_covered (by decide) (wellFormed_accumulateFour hop) (not_computes_accumulateFour hop)
  have hindex : ∀ op, op = .gather ∨ op = .scatter → ¬ Covered op := by
    intro op hop
    exact not_covered (by decide) (wellFormed_indexFour hop) (not_computes_indexFour hop)
  unfold uncovered at h
  simp only [List.mem_cons, List.not_mem_nil, or_false] at h
  rcases h with h | h | h | h | h | h | h | h
  · exact hreduce _ (Or.inl h)
  · exact hreduce _ (Or.inr h)
  · rw [h]
    exact not_covered (by decide) wellFormed_randomFour not_computes_randomFour
  · exact haccumulate _ (Or.inl h)
  · exact haccumulate _ (Or.inr h)
  · exact hindex _ (Or.inl h)
  · exact hindex _ (Or.inr h)
  · rw [h]
    exact not_covered (by decide) wellFormed_matmulSquare not_computes_matmulSquare

/-- `execute_instr` covers an opcode of the bytecode exactly if it is none of the eight that it leaves to
`execute_regular` by mistake. -/
theorem covered_iff (opcode : BhOpcode) (hext : ∀ id, opcode ≠ .ext id) : Covered opcode ↔ opcode ∉ uncovered :=
  ⟨fun hc hmem => not_covered_of_mem hmem hc, covered_of_notMem hext⟩

def rangeFour : BhInstruction := ⟨.range, fourView 0, noView, noView, .int .int64 0⟩

theorem covered_iff_rangeFour : ∃ tasks : ℕ → List Task,
    (∀ r < 2, executeInstr plainStores ⟨2, r⟩ (fun _ => true) rangeFour = some (tasks r)) ∧
      ∀ l n, Runs l (cluster natInterp 2 tasks (scatter plainStores 2 [])) n → (∀ r, n.step r = none) →
        gathered plainStores 2 (fun r => (n.state r).mem) (four 0) = [0, 1, 2, 3] := by
  have hc : Covered .range := (covered_iff .range fun _ => BhOpcode.noConfusion).mpr (by decide)
  obtain ⟨tasks, hexec, k, hends⟩ := hc natInterp exact_natInterp plainStores 2 (by decide) rangeFour rfl
    ⟨apart_of_four rfl (by decide) (by decide), rfl⟩ (fun _ _ => true) (scatter plainStores 2 []) (memory [])
    (inRange_of_kind (by decide)) (gathered_scatter plainStores (by decide) [])
  refine ⟨tasks, hexec, fun l n hn hstuck => ?_⟩
  rw [((hends l n hn).2.2 hstuck).2.2]
  decide

/-- Two processes number a random vector of four elements 0, 1, 0, 1. -/
theorem not_covered_randomFour : WellFormed randomFour ∧ Exact natInterp ∧
    (∀ r < 2, executeInstr plainStores ⟨2, r⟩ (fun _ => true) randomFour = some [.inst (boxInst 2 randomFour r)]) ∧
    gathered plainStores 2 (fun r => runWhole natInterp (boxInst 2 randomFour r) (scatter plainStores 2 [] r)) (four 0) =
      [0, 1, 0, 1] ∧
    contentsOf (runWhole natInterp randomFour (memory [])) (four 0) = [0, 1, 2, 3] ∧
    ¬ Computes natInterp plainStores 2 randomFour :=
  ⟨wellFormed_randomFour, exact_natInterp, by decide +kernel, by decide +kernel, by decide, not_computes_randomFour⟩

end Bohrium.Cluster
