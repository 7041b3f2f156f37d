import Bohrium.Core.Instruction

/-! # The symbol table of the CPU engine

`SymbolTable::map_operand` (`ve/cpu/symbol_table.cpp`) with `equivalent` and `determine_layout`
(`ve/cpu/utils.cpp`), for operands that are arrays. A constant never shares an entry with an array, since
its layout differs. The data pointer of an operand is that of its base. -/
namespace Bohrium.Engine
open Strided
set_option autoImplicit false

inductive Layout
  | scalarConst | scalarTemp | scalar | contractable | contiguous | consecutive | strided
  deriving DecidableEq, Repr

/-- `operand_t`, less what follows from the base. -/
structure Operand where
  layout : Layout
  base : Option BhBase
  start : ℤ
  dims : List Dim
  deriving DecidableEq, Repr

/-- The loop of `determine_layout`, from the innermost dimension outwards: whether all strides were as
expected, and the one expected next. -/
def consecutiveLoop (inner : ℤ) (dims : List Dim) : Bool × ℤ :=
  dims.foldr (fun d acc => (acc.1 && d.stride == acc.2, d.shape * d.stride)) (true, inner)

def determineLayout (dims : List Dim) : Layout :=
  let inner := (dims.getLast?.map Dim.stride).getD 0
  let consecutive := (consecutiveLoop inner dims).1
  if (dims.map Dim.shape).prod = 1 then .scalar
  else if consecutive && inner == 1 then .contiguous
  else if consecutive && decide (1 < inner) then .consecutive
  else .strided

def operandOf (v : BhView) : Operand := ⟨determineLayout v.dims, v.base, v.start, v.dims⟩

def equivalent (one other : Operand) : Bool :=
  one.layout == other.layout && one.dims.length == other.dims.length && one.start == other.start &&
    one.base == other.base &&
    (one.dims.zip other.dims).all fun p => p.1.stride == p.2.stride && p.1.shape == p.2.shape

/-- `map_operand`: the table afterwards and the entry of the operand. -/
def mapOperand (table : List Operand) (v : BhView) : List Operand × ℕ :=
  match table.findIdx? fun o => equivalent o (operandOf v) with
  | some k => (table, k)
  | none => (table ++ [operandOf v], table.length)

/-- `instrs_to_tacs`, as far as it fills the table. -/
def instrsToTacs (l : List BhInstruction) : List Operand :=
  (l.flatMap fun i => i.operands.filter fun v => !bhIsConstant v).foldl (fun table v => (mapOperand table v).1) []

/-- The entry of an operand in the finished table. -/
def symbolOf (table : List Operand) (v : BhView) : ℕ := (mapOperand table v).2

theorem zip_all_iff {ds es : List Dim} (hlen : ds.length = es.length) :
    ((ds.zip es).all fun p => p.1.stride == p.2.stride && p.1.shape == p.2.shape) = true ↔ ds = es := by
  induction ds generalizing es with
  | nil =>
    rw [List.length_eq_zero_iff.mp hlen.symm]
    simp
  | cons d ds ih =>
    cases es with
    | nil => cases hlen
    | cons e es =>
      have hde : d.stride = e.stride ∧ d.shape = e.shape ↔ d = e := by
        cases d
        cases e
        simp [and_comm]
      rw [List.zip_cons_cons, List.all_cons, Bool.and_eq_true, Bool.and_eq_true, beq_iff_eq, beq_iff_eq,
        ih (Nat.succ.inj hlen), hde, List.cons.injEq]

/-- Operands are equivalent only if they are the same in every dimension. -/
theorem equivalent_iff {one other : Operand} : equivalent one other = true ↔ one = other := by
  cases one with
  | mk layout base start dims =>
    cases other with
    | mk layout' base' start' dims' =>
      simp only [equivalent, Bool.and_eq_true, beq_iff_eq, Operand.mk.injEq]
      constructor
      · rintro ⟨⟨⟨⟨hlayout, hlen⟩, hstart⟩, hbase⟩, hall⟩
        exact ⟨hlayout, hbase, hstart, (zip_all_iff hlen).mp hall⟩
      · rintro ⟨rfl, rfl, rfl, rfl⟩
        exact ⟨⟨⟨⟨rfl, rfl⟩, rfl⟩, rfl⟩, (zip_all_iff rfl).mpr rfl⟩

theorem operandOf_inj {u v : BhView} (h : operandOf u = operandOf v) : u = v := by
  injection h with _ hbase hstart hdims
  cases u
  cases v
  simp only at hbase hstart hdims
  rw [hbase, hstart, hdims]

section Table
variable {table : List Operand} {v w : BhView}

/-- `map_operand` keeps the entries and makes one for the operand. -/
theorem mem_mapOperand (table : List Operand) (v : BhView) :
    (∀ o ∈ table, o ∈ (mapOperand table v).1) ∧ operandOf v ∈ (mapOperand table v).1 := by
  unfold mapOperand
  cases hfind : table.findIdx? fun o => equivalent o (operandOf v) with
  | some k =>
    refine ⟨fun o ho => ho, ?_⟩
    obtain ⟨hk, heq, _⟩ := List.findIdx?_eq_some_iff_getElem.mp hfind
    rw [← equivalent_iff.mp heq]
    exact List.getElem_mem hk
  | none => exact ⟨fun o ho => List.mem_append_left _ ho, List.mem_append_right _ List.mem_cons_self⟩

theorem mem_foldl_mapOperand {vs : List BhView} (h : operandOf v ∈ table ∨ v ∈ vs) :
    operandOf v ∈ vs.foldl (fun table v => (mapOperand table v).1) table := by
  induction vs generalizing table with
  | nil => exact h.resolve_right List.not_mem_nil
  | cons u vs ih =>
    obtain ⟨hkeep, hnew⟩ := mem_mapOperand table u
    apply ih
    rcases h with h | h
    · exact Or.inl (hkeep _ h)
    · rcases List.mem_cons.mp h with rfl | h
      · exact Or.inl hnew
      · exact Or.inr h

/-- The table has an entry for every operand of the instructions. -/
theorem mem_instrsToTacs {l : List BhInstruction} {i : BhInstruction} (hi : i ∈ l) (hv : v ∈ i.operands)
    (hc : bhIsConstant v = false) : operandOf v ∈ instrsToTacs l :=
  mem_foldl_mapOperand (Or.inr (List.mem_flatMap.mpr ⟨i, hi, List.mem_filter.mpr ⟨hv, by simp [hc]⟩⟩))

/-- Different views have different entries. -/
theorem symbolOf_inj (hv : operandOf v ∈ table) (h : symbolOf table v = symbolOf table w) : v = w := by
  have hfound : ∃ k, ∃ hk : k < table.length, symbolOf table v = k ∧ table[k] = operandOf v := by
    unfold symbolOf mapOperand
    cases hfind : table.findIdx? fun o => equivalent o (operandOf v) with
    | some k =>
      obtain ⟨hk, heq, _⟩ := List.findIdx?_eq_some_iff_getElem.mp hfind
      exact ⟨k, hk, rfl, equivalent_iff.mp heq⟩
    | none =>
      have hnot := List.findIdx?_eq_none_iff.mp hfind _ hv
      rw [equivalent_iff.mpr rfl] at hnot
      cases hnot
  obtain ⟨k, hk, hsym, hentry⟩ := hfound
  rw [hsym] at h
  unfold symbolOf mapOperand at h
  cases hfind : table.findIdx? fun o => equivalent o (operandOf w) with
  | some k' =>
    rw [hfind] at h
    obtain ⟨hk', heq, _⟩ := List.findIdx?_eq_some_iff_getElem.mp hfind
    have hkk : k = k' := h
    subst hkk
    exact operandOf_inj (hentry.symm.trans (equivalent_iff.mp heq))
  | none =>
    rw [hfind] at h
    have hlen : k = table.length := h
    omega

end Table

end Bohrium.Engine
