import Bohrium.Npbackend.Ufunc

/-! # Operands that overlap

An instruction is executed element by element, in any order. `overlap_conflict` finds the operands for
which this is not the same as reading everything first; a temporary array then stands in for the result.
A call refuses an input that does not broadcast to the result, an assignment broadcasts the result too. -/
namespace Bohrium.Npbackend.Ufunc
open Strided Layout
set_option autoImplicit false

variable {V : Type}

/-! ## What NumPy and the runtime promise -/

/-- The lengths `ns` broadcast to the lengths `os`: the last dimensions are aligned. -/
def Fits (ns os : List ℕ) : Prop := BroadcastsTo ns.reverse os.reverse

instance (ns os : List ℕ) : Decidable (Fits ns os) := inferInstanceAs (Decidable (BroadcastsTo _ _))

/-- The element of an array of lengths `ns` that an index of the broadcast array shows. -/
def coord (ns idx : List ℕ) : List ℕ := (coordinate ns.reverse idx.reverse).reverse

def Operand.shape : Operand V → List ℕ
  | .scalar _ _ => []
  | .array a => a.shape

/-- The array `b` shows the argument in the lengths `t`. -/
def Shows (t : List ℕ) (x : Operand V) (b : NpArray) : Prop :=
  b.shape = t ∧ ∀ a, x = .array a → b.base = a.base ∧ b.dtype = a.dtype ∧
    ∀ idx ∈ indices t, b.cell idx = a.cell (coord a.shape idx)

/-- The lengths `t` are the least ones that all arguments broadcast to. -/
def Common (xs : List (Operand V)) (t : List ℕ) : Prop :=
  (∀ x ∈ xs, Fits x.shape t) ∧ ∀ t', (∀ x ∈ xs, Fits x.shape t') → Fits t t'

/-- The documented behaviour of NumPy and of the runtime. -/
structure Documented (E : Environment V) : Prop where
  broadcast_none : ∀ xs, E.broadcastArrays xs = none → ¬ ∃ t, ∀ x ∈ xs, Fits x.shape t
  broadcast_some : ∀ xs bs, E.broadcastArrays xs = some bs → ∃ t, Common xs t ∧ List.Forall₂ (Shows t) xs bs
  share : ∀ a b i j, i ∈ indices a.shape → j ∈ indices b.shape → a.cell i = b.cell j → E.mayShareMemory a b = true
  apart : ∀ a b, a.base ≠ b.base → E.mayShareMemory a b = false
  ellipsis : ∀ a, E.getitem a [.ellipsis] = some a
  order : ∀ n idxs, (E.order n idxs).Perm idxs
  convert_self : ∀ d v, E.convert d d v = v

/-! ## What the functions are for -/

/-- No two indices of the array have one element. -/
def NpArray.Injective (a : NpArray) : Prop := ∀ i ∈ indices a.shape, ∀ j ∈ indices a.shape, a.cell i = a.cell j → i = j

def NpArray.cells (a : NpArray) : List (ℕ × ℤ) := (indices a.shape).map a.cell

/-- An element of an argument at an index of the result, converted. -/
def Operand.at (E : Environment V) (dtype : ℕ) (m : ℕ × ℤ → V) (idx : List ℕ) : Operand V → V
  | .scalar v d => E.convert d dtype v
  | .array a => E.convert a.dtype dtype (m (a.cell (coord a.shape idx)))

/-- Of the bases there were, only the elements `cs` have changed. -/
structure Kept (s s' : State V) (cs : List (ℕ × ℤ)) : Prop where
  nbase : s.nbase ≤ s'.nbase
  bohrium : ∀ b < s.nbase, s'.bohrium b = s.bohrium b
  mem : ∀ c, c.1 < s.nbase → c ∉ cs → s'.mem c = s.mem c

/-- The elements of `out` have become `val`, and nothing else has changed. -/
def Written (s s' : State V) (out : NpArray) (val : List ℕ → V) : Prop :=
  Kept s s' out.cells ∧ ∀ idx ∈ indices out.shape, s'.mem (out.cell idx) = val idx

/-- An exception is raised, and nothing has changed. -/
def Refused {α : Type} (s : State V) (r : Except UfuncError α × State V) : Prop :=
  (∃ e, r.1 = .error e) ∧ Kept s r.2 []

/-- `assign(ary, out)` copies what `ary` was before, or refuses to. -/
def AssignRight (E : Environment V) (depth : ℕ) (s : State V) (ary : Operand V) (out : NpArray) : Prop :=
  if Fits ary.shape out.shape then
    (assign E depth ary out s).1 = .ok () ∧ Written s (assign E depth ary out s).2 out (ary.at E out.dtype s.mem)
  else Refused s (assign E depth ary out s)

/-! ## Broadcasting -/

theorem mem_indices_reverse {ns idx : List ℕ} : idx.reverse ∈ indices ns.reverse ↔ idx ∈ indices ns := by
  rw [mem_indices, mem_indices]
  exact List.forall₂_reverse_iff

theorem fits_refl (ns : List ℕ) : Fits ns ns := broadcastsTo_refl _

theorem fits_nil (ns : List ℕ) : Fits [] ns := trivial

theorem Fits.antisymm {ns os : List ℕ} (h : Fits ns os) (h' : Fits os ns) : ns = os :=
  List.reverse_injective (BroadcastsTo.antisymm h h')

theorem coord_mem {ns os idx : List ℕ} (h : Fits ns os) (hidx : idx ∈ indices os) : coord ns idx ∈ indices ns := by
  rw [← mem_indices_reverse, coord, List.reverse_reverse]
  exact coordinate_mem h (mem_indices_reverse.mpr hidx)

theorem coord_self {ns idx : List ℕ} (hidx : idx ∈ indices ns) : coord ns idx = idx := by
  rw [coord, coordinate_self (mem_indices_reverse.mpr hidx), List.reverse_reverse]

theorem coord_coord {ns ms : List ℕ} (h : Fits ns ms) (idx : List ℕ) : coord ns (coord ms idx) = coord ns idx := by
  rw [coord, coord, coord, List.reverse_reverse, coordinate_coordinate h]

/-- An array shows itself. -/
theorem shows_self (a : NpArray) : Shows a.shape (.array a : Operand V) a := by
  refine ⟨rfl, fun b hb => ?_⟩
  obtain rfl := Operand.array.inj hb
  exact ⟨rfl, rfl, fun idx hidx => by rw [coord_self hidx]⟩

/-- The lengths that the arguments are broadcast to, if any, are those of the last one if all the others fit. -/
theorem common_append_singleton {xs : List (Operand V)} {out : NpArray} {t : List ℕ} (h : Common (xs ++ [.array out]) t) :
    t = out.shape ↔ ∀ x ∈ xs, Fits x.shape out.shape := by
  constructor
  · rintro rfl x hx
    exact h.1 x (List.mem_append_left _ hx)
  · intro hx
    have hout : Fits out.shape t := h.1 (.array out) (by simp)
    refine Fits.antisymm (h.2 out.shape fun x hmem => ?_) hout
    obtain hmem | hmem := List.mem_append.mp hmem
    · exact hx x hmem
    · obtain rfl := List.mem_singleton.mp hmem
      exact fits_refl _

/-- The operand `y` stands for the argument `x` in the lengths `t`. -/
def Presents (t : List ℕ) : Operand V → Operand V → Prop
  | .scalar v d, y => y = .scalar v d
  | .array a, y => ∃ b, y = .array b ∧ Shows t (.array a : Operand V) b

theorem Presents.read {E : Environment V} {t idx : List ℕ} {x y : Operand V} (h : Presents t x y) (hidx : idx ∈ indices t)
    (d : ℕ) (m : ℕ × ℤ → V) : y.read E d m idx = x.at E d m idx := by
  cases x with
  | scalar v e =>
    obtain rfl : y = .scalar v e := h
    rfl
  | array a =>
    obtain ⟨b, rfl, _, hb⟩ := h
    obtain ⟨_, hdtype, hcell⟩ := hb a rfl
    rw [Operand.read, Operand.at, hdtype, hcell idx hidx]

/-- All that is broadcast has the common lengths. -/
theorem shape_of_shows {t : List ℕ} {xs : List (Operand V)} {bs : List NpArray} (h : List.Forall₂ (Shows t) xs bs) :
    ∀ b ∈ bs, b.shape = t :=
  ((List.forall₂_and_left _ _).mp (h.flip.imp fun _ _ hb => ⟨hb.1, hb⟩)).1

theorem forall₂_concat {t : List ℕ} {xs : List (Operand V)} {x : Operand V} {bargs : List NpArray}
    (h : List.Forall₂ (Shows t) (xs ++ [x]) bargs) :
    ∃ bs b, bargs = bs ++ [b] ∧ List.Forall₂ (Shows t) xs bs ∧ Shows t x b := by
  induction xs generalizing bargs with
  | nil =>
    cases h with
    | cons hx hnil =>
      cases hnil
      exact ⟨[], _, rfl, List.Forall₂.nil, hx⟩
  | cons y xs ih =>
    cases h with
    | cons hy hrest =>
      obtain ⟨bs, b, rfl, hxs, hx⟩ := ih hrest
      exact ⟨_ :: bs, b, rfl, List.Forall₂.cons hy hxs, hx⟩

section Broadcast
variable {E : Environment V} (hE : Documented E)
include hE

/-- The bridge returns an argument that needs no broadcasting, which shows the same. -/
theorem broadcastArrays_some {xs : List (Operand V)} {bs : List NpArray} (h : broadcastArrays E xs = some bs) :
    ∃ t, Common xs t ∧ List.Forall₂ (Shows t) xs bs := by
  obtain ⟨cs, hcs, rfl⟩ := Option.map_eq_some_iff.mp h
  obtain ⟨t, ht, hshows⟩ := hE.broadcast_some xs cs hcs
  refine ⟨t, ht, ?_⟩
  clear h hcs ht
  induction hshows with
  | nil => exact List.Forall₂.nil
  | @cons x c xs cs hx _ ih =>
    refine List.Forall₂.cons ?_ ih
    cases x with
    | scalar v d => exact hx
    | array a =>
      dsimp only
      by_cases hid : identicalViews a c = true
      · rw [if_pos hid]
        have hshape : a.shape = t := by
          unfold identicalViews at hid
          simp only [Bool.and_eq_true, beq_iff_eq] at hid
          exact hid.1.2.trans hx.1
        exact hshape ▸ shows_self a
      · rw [if_neg hid]
        exact hx

theorem broadcastArrays_none {xs : List (Operand V)} (h : broadcastArrays E xs = none) : ¬ ∃ t, ∀ x ∈ xs, Fits x.shape t :=
  hE.broadcast_none xs (Option.map_eq_none_iff.mp h)

/-- What `assign` works on shows what it was given. -/
theorem broadcastPair_some {x y : Operand V} {out o : NpArray} (h : broadcastPair E x out = some (y, o)) :
    ∃ t, Common [x, .array out] t ∧ Presents t x y ∧ Shows t (.array out : Operand V) o := by
  cases x with
  | scalar v d =>
    obtain ⟨rfl, rfl⟩ := Prod.mk.inj (Option.some.inj h)
    refine ⟨out.shape, ⟨?_, ?_⟩, rfl, shows_self out⟩
    · simp [Operand.shape, fits_nil, fits_refl]
    · intro t' h'
      exact h' (.array out) (by simp)
  | array a =>
    rw [broadcastPair] at h
    cases hb : broadcastArrays E [.array a, .array out] with
    | none =>
      rw [hb] at h
      cases h
    | some bs =>
      obtain ⟨t, ht, hshows⟩ := broadcastArrays_some hE hb
      cases hshows with
      | @cons _ b _ bs ha hrest =>
        cases hrest with
        | @cons _ c _ bs hout hnil =>
          cases hnil
          rw [hb] at h
          obtain ⟨rfl, rfl⟩ := Prod.mk.inj (Option.some.inj h)
          exact ⟨t, ht, ⟨b, rfl, ha⟩, hout⟩

theorem broadcastPair_none {x : Operand V} {out : NpArray} (h : broadcastPair E x out = none) :
    ¬ ∃ t, Fits x.shape t ∧ Fits out.shape t := by
  cases x with
  | scalar v d => cases h
  | array a =>
    cases hb : broadcastArrays E [.array a, .array out] with
    | none =>
      have hnone := broadcastArrays_none hE hb
      simpa [Operand.shape] using hnone
    | some bs =>
      obtain ⟨t, ht, hshows⟩ := broadcastArrays_some hE hb
      rw [broadcastPair, hb] at h
      cases hshows with
      | cons ha hrest =>
        cases hrest with
        | cons hout hnil =>
          cases hnil
          cases h

end Broadcast

/-! ## Instructions -/

theorem mem_cells {a : NpArray} {c : ℕ × ℤ} : c ∈ a.cells ↔ ∃ idx ∈ indices a.shape, a.cell idx = c := List.mem_map

theorem Kept.refl (s : State V) (cs : List (ℕ × ℤ)) : Kept s s cs := ⟨le_refl _, fun _ _ => rfl, fun _ _ _ => rfl⟩

theorem Kept.trans {s s' s'' : State V} {cs cs' : List (ℕ × ℤ)} (h : Kept s s' cs) (h' : Kept s' s'' cs')
    (hcs : ∀ c ∈ cs', c.1 < s.nbase → c ∈ cs) : Kept s s'' cs where
  nbase := h.nbase.trans h'.nbase
  bohrium b hb := (h'.bohrium b (hb.trans_le h.nbase)).trans (h.bohrium b hb)
  mem c hc hne := (h'.mem c (hc.trans_le h.nbase) fun hmem => hne (hcs c hmem hc)).trans (h.mem c hc hne)

theorem Kept.mono {s s' : State V} {cs cs' : List (ℕ × ℤ)} (h : Kept s s' cs) (hcs : cs ⊆ cs') : Kept s s' cs' :=
  ⟨h.nbase, h.bohrium, fun c hc hne => h.mem c hc fun hmem => hne (hcs hmem)⟩

theorem Kept.trans_nil {s s' s'' : State V} {cs : List (ℕ × ℤ)} (h : Kept s s' []) (h' : Kept s' s'' cs) : Kept s s'' cs :=
  (h.mono (List.nil_subset _)).trans h' fun _ hc _ => hc

theorem Written.of_kept {s s' s'' : State V} {out : NpArray} {val : List ℕ → V} (h : Kept s s' [])
    (h' : Written s' s'' out val) : Written s s'' out val := ⟨h.trans_nil h'.1, h'.2⟩

theorem Written.congr {s s' : State V} {out : NpArray} {val val' : List ℕ → V} (h : Written s s' out val)
    (hval : ∀ idx ∈ indices out.shape, val idx = val' idx) : Written s s' out val' :=
  ⟨h.1, fun idx hidx => (h.2 idx hidx).trans (hval idx hidx)⟩

/-- No element of the operand is written for an index other than its own. -/
def Operand.Free (out : NpArray) (x : Operand V) : Prop :=
  ∀ a, x = .array a → ∀ i ∈ indices out.shape, ∀ j ∈ indices out.shape, i ≠ j → out.cell i ≠ a.cell j

/-- An operand on another base is free. -/
theorem free_of_base_ne {out : NpArray} {x : Operand V} (h : ∀ a, x = .array a → a.base ≠ out.base) : x.Free out := by
  intro a ha i _ j _ _ heq
  exact h a ha (congrArg Prod.fst heq).symm

theorem Operand.read_update {E : Environment V} {out : NpArray} {x : Operand V} (h : x.Free out) {i j : List ℕ}
    (hi : i ∈ indices out.shape) (hj : j ∈ indices out.shape) (hij : i ≠ j) (d : ℕ) (m : ℕ × ℤ → V) (v : V) :
    x.read E d (Function.update m (out.cell i) v) j = x.read E d m j := by
  cases x with
  | scalar w e => rfl
  | array a => rw [Operand.read, Operand.read, Function.update_of_ne (h a rfl i hi j hj hij).symm]

section Instructions
variable {E : Environment V} (hE : Documented E) {s : State V} {out : NpArray}
include hE

/-- An instruction whose operands are free reads them before it writes anything. -/
theorem written_execute (hout : out.Injective) {val : (ℕ × ℤ → V) → List ℕ → V}
    (hval : ∀ i ∈ indices out.shape, ∀ j ∈ indices out.shape, i ≠ j → ∀ m v,
      val (Function.update m (out.cell i) v) j = val m j) : Written s (execute E s out val) out (val s.mem) := by
  have horder := hE.order s.executed (indices out.shape)
  have hapart : Elementwise.Apart out.cell val (E.order s.executed (indices out.shape)) := by
    intro i hi j hj hij
    rw [horder.mem_iff] at hi hj
    exact ⟨fun heq => hij (hout i hi j hj heq), hval i hi j hj hij⟩
  refine ⟨⟨le_refl _, fun _ _ => rfl, fun c _ hc => ?_⟩, fun idx hidx => ?_⟩
  · refine Elementwise.run_of_ne s.mem fun i hi heq => hc ?_
    exact mem_cells.mpr ⟨i, horder.mem_iff.mp hi, heq⟩
  · refine Elementwise.run_of_mem hapart ?_ s.mem (horder.mem_iff.mpr hidx)
    exact horder.nodup_iff.mpr (nodup_indices _)

theorem written_targetUfunc (hout : out.Injective) {ins : List (Operand V)} (hins : ∀ x ∈ ins, x.Free out) (name : String) :
    Written s (targetUfunc E s name out ins) out fun idx =>
      E.apply name (commandType ins) (ins.map (Operand.read E (commandType ins) s.mem idx)) := by
  refine written_execute hE hout fun i hi j hj hij m v => ?_
  refine congrArg (E.apply name _) (List.map_congr_left fun x hx => ?_)
  exact Operand.read_update (hins x hx) hi hj hij _ m v

theorem written_targetIdentity (hout : out.Injective) {x : Operand V} (hx : x.Free out) :
    Written s (targetIdentity E s out x) out (x.read E out.dtype s.mem) :=
  written_execute hE hout fun _ hi _ hj hij m v => Operand.read_update hx hi hj hij _ m v

end Instructions

/-! ## New arrays -/

theorem kept_empty (s : State V) (shape : List ℕ) (dtype : ℕ) (bohrium : Bool) :
    Kept s (empty s shape dtype bohrium).2 [] where
  nbase := Nat.le_succ _
  bohrium _ hb := Function.update_of_ne (Nat.ne_of_lt hb) _ _
  mem _ _ _ := rfl

theorem shape_empty (s : State V) (shape : List ℕ) (dtype : ℕ) (bohrium : Bool) :
    (empty s shape dtype bohrium).1.shape = shape := shape_packed shape

theorem injective_empty (s : State V) (shape : List ℕ) (dtype : ℕ) (bohrium : Bool) :
    (empty s shape dtype bohrium).1.Injective := by
  intro i hi j hj h
  rw [shape_empty] at hi hj
  have heq : 0 + Strided.dot (packed shape) i = 0 + Strided.dot (packed shape) j := congrArg Prod.snd h
  rw [zero_add, zero_add, dot_packed, dot_packed] at heq
  exact flatIndex_inj hi hj (Nat.cast_injective heq)

/-- A new array with the elements `val`; everything else is as it was. -/
structure Made (s s' : State V) (tmp : NpArray) (t : List ℕ) (dtype : ℕ) (val : List ℕ → V) : Prop where
  kept : Kept s s' []
  new : s.nbase ≤ tmp.base
  known : tmp.base < s'.nbase
  shape : tmp.shape = t
  dtype : tmp.dtype = dtype
  value : ∀ idx ∈ indices t, s'.mem (tmp.cell idx) = val idx

/-- A new array that is written has what was written to it. -/
theorem Written.made {s s₁ s₂ : State V} {shape : List ℕ} {dtype : ℕ} {bohrium : Bool} {val : List ℕ → V}
    (hs₁ : Kept (empty s shape dtype bohrium).2 s₁ [])
    (h : Written s₁ s₂ (empty s shape dtype bohrium).1 val) :
    Made s s₂ (empty s shape dtype bohrium).1 shape dtype val where
  kept := by
    have hkept := (kept_empty s shape dtype bohrium).trans_nil hs₁
    refine hkept.trans h.1 fun c hc hlt => ?_
    obtain ⟨idx, _, rfl⟩ := mem_cells.mp hc
    exact absurd hlt (Nat.lt_irrefl s.nbase)
  new := le_refl _
  known := Nat.lt_of_lt_of_le (Nat.lt_succ_self s.nbase) (hs₁.nbase.trans h.1.nbase)
  shape := shape_empty s shape dtype bohrium
  dtype := rfl
  value idx hidx := h.2 idx (by rw [shape_empty]; exact hidx)

theorem Made.congr {s s' : State V} {tmp : NpArray} {t : List ℕ} {d : ℕ} {val val' : List ℕ → V} (h : Made s s' tmp t d val)
    (hval : ∀ idx ∈ indices t, val idx = val' idx) : Made s s' tmp t d val' :=
  ⟨h.kept, h.new, h.known, h.shape, h.dtype, fun idx hidx => (h.value idx hidx).trans (hval idx hidx)⟩

theorem Made.of_kept {s s₁ s' : State V} {tmp : NpArray} {t : List ℕ} {d : ℕ} {val : List ℕ → V} (hs : Kept s s₁ [])
    (h : Made s₁ s' tmp t d val) : Made s s' tmp t d val :=
  ⟨hs.trans_nil h.kept, hs.nbase.trans h.new, h.known, h.shape, h.dtype, h.value⟩

/-- The operand `y`, now, stands for the argument `x`, at first. -/
structure Stands (E : Environment V) (out? : Option NpArray) (s₀ s : State V) (t : List ℕ) (dtype : ℕ) (x y : Operand V) :
    Prop where
  array : ∀ a, x = .array a → ∃ b, y = .array b
  shape : ∀ a, y = .array a → a.shape = t
  known : ∀ a, y = .array a → a.base < s.nbase
  value : ∀ idx ∈ indices t, y.read E dtype s.mem idx = x.at E dtype s₀.mem idx
  free : ∀ out ∈ out?, y.Free out

section Fresh
variable {E : Environment V} {out? : Option NpArray} {s₀ s s' : State V} {t : List ℕ} {d : ℕ} {x y : Operand V}

/-- What happens on new bases does not concern it. -/
theorem Stands.kept (h : Stands E out? s₀ s t d x y) (hs : Kept s s' []) : Stands E out? s₀ s' t d x y where
  array := h.array
  shape := h.shape
  known a ha := (h.known a ha).trans_le hs.nbase
  free := h.free
  value idx hidx := by
    rw [← h.value idx hidx]
    cases y with
    | scalar v e => rfl
    | array a => rw [Operand.read, Operand.read, hs.mem _ (h.known a rfl) List.not_mem_nil]

/-- What it is computed into may still be allocated. -/
theorem Stands.retarget (h : Stands E none s₀ s t d x y) (hout : ∀ out ∈ out?, s.nbase ≤ out.base) :
    Stands E out? s₀ s t d x y :=
  ⟨h.array, h.shape, h.known, h.value, fun out ho =>
    free_of_base_ne fun a ha => Nat.ne_of_lt ((h.known a ha).trans_le (hout out ho))⟩

theorem kept_arrayOf (s : State V) (a : NpArray) : Kept s (arrayOf s a).2 [] := by
  have h := kept_empty s a.shape a.dtype true
  refine ⟨h.nbase, h.bohrium, fun c hc _ => Elementwise.run_of_ne s.mem fun i _ heq => ?_⟩
  have hbase : s.nbase = c.1 := congrArg Prod.fst heq
  omega

theorem read_arrayOf {a : NpArray} (ha : a.base < s.nbase) {idx : List ℕ} (hidx : idx ∈ indices a.shape) :
    (arrayOf s a).2.mem ((arrayOf s a).1.cell idx) = s.mem (a.cell idx) := by
  have hinj := injective_empty s a.shape a.dtype true
  have hshape := shape_empty s a.shape a.dtype true
  refine Elementwise.run_of_mem (fun i hi j hj hij => ⟨fun heq => hij ?_, fun m v => ?_⟩) (nodup_indices _) s.mem hidx
  · exact hinj i (by rw [hshape]; exact hi) j (by rw [hshape]; exact hj) heq
  · refine Function.update_of_ne (fun heq => ?_) _ _
    have hbase : a.base = s.nbase := congrArg Prod.fst heq
    omega

/-- The copy of a NumPy array stands for the same argument. -/
theorem stands_toBhc (h : Stands E out? s₀ s t d x y) (hout : ∀ out ∈ out?, out.base < s.nbase) :
    Kept s (toBhc s y).2 [] ∧ Stands E out? s₀ (toBhc s y).2 t d x (toBhc s y).1 ∧ (toBhc s y).1.dtype = y.dtype := by
  cases y with
  | scalar v e => exact ⟨Kept.refl _ _, h, rfl⟩
  | array a =>
    rw [toBhc]
    by_cases hcheck : check s a = true
    · rw [if_pos hcheck]
      exact ⟨Kept.refl _ _, h, rfl⟩
    · rw [if_neg hcheck]
      have hkept := kept_arrayOf s a
      refine ⟨hkept, ⟨fun _ _ => ⟨_, rfl⟩, ?_, ?_, ?_, ?_⟩, rfl⟩
      · rintro b hb
        obtain rfl := Operand.array.inj hb
        exact (shape_empty s a.shape a.dtype true).trans (h.shape a rfl)
      · rintro b hb
        obtain rfl := Operand.array.inj hb
        exact Nat.lt_succ_self s.nbase
      · intro idx hidx
        rw [← h.value idx hidx]
        rw [← h.shape a rfl] at hidx
        exact congrArg _ (read_arrayOf (h.known a rfl) hidx)
      · intro out ho
        refine free_of_base_ne fun b hb => ?_
        obtain rfl := Operand.array.inj hb
        have hbase := hout out ho
        show s.nbase ≠ out.base
        omega

end Fresh

/-! ## Assignments -/

/-- The argument is on a base there is. -/
def Operand.Known (s : State V) (x : Operand V) : Prop := ∀ a, x = .array a → a.base < s.nbase

theorem Presents.array {t : List ℕ} {x y : Operand V} (h : Presents t x y) {b : NpArray} (hb : y = .array b) :
    ∃ a, x = .array a ∧ Shows t (.array a : Operand V) b := by
  cases x with
  | scalar v d =>
    obtain rfl : y = .scalar v d := h
    cases hb
  | array a =>
    obtain ⟨c, rfl, hc⟩ := h
    obtain rfl := Operand.array.inj hb
    exact ⟨a, rfl, hc⟩

theorem Presents.stands {E : Environment V} {out? : Option NpArray} {s : State V} {t : List ℕ} {x y : Operand V}
    (h : Presents t x y) (hx : x.Known s) (hfree : ∀ out ∈ out?, y.Free out) (d : ℕ) : Stands E out? s s t d x y where
  array := by
    rintro a rfl
    obtain ⟨b, rfl, _⟩ := h
    exact ⟨b, rfl⟩
  shape b hb := by
    obtain ⟨a, _, hshow⟩ := h.array hb
    exact hshow.1
  known b hb := by
    obtain ⟨a, rfl, hshow⟩ := h.array hb
    rw [(hshow.2 a rfl).1]
    exact hx a rfl
  value _ hidx := h.read hidx d s.mem
  free := hfree

theorem injective_of_shows {out o : NpArray} (hout : out.Injective) (h : Shows out.shape (.array out : Operand V) o) :
    o.Injective := by
  obtain ⟨hshape, ho⟩ := h
  obtain ⟨_, _, hcell⟩ := ho out rfl
  intro i hi j hj heq
  rw [hshape] at hi hj
  rw [hcell i hi, hcell j hj, coord_self hi, coord_self hj] at heq
  exact hout i hi j hj heq

theorem Written.of_shows {s s' : State V} {out o : NpArray} {val : List ℕ → V} (h : Written s s' o val)
    (ho : Shows out.shape (.array out : Operand V) o) : Written s s' out val := by
  obtain ⟨hshape, ho⟩ := ho
  obtain ⟨_, _, hcell⟩ := ho out rfl
  have heq : ∀ idx ∈ indices out.shape, o.cell idx = out.cell idx := fun idx hidx => by rw [hcell idx hidx, coord_self hidx]
  have hcells : o.cells = out.cells := by
    rw [NpArray.cells, NpArray.cells, hshape]
    exact List.map_congr_left heq
  refine ⟨hcells ▸ h.1, fun idx hidx => ?_⟩
  rw [← heq idx hidx]
  exact h.2 idx (hshape ▸ hidx)

theorem dims_eq {ds es : List Dim} (hshape : ds.map Dim.shape = es.map Dim.shape)
    (hstride : ds.map Dim.stride = es.map Dim.stride) : ds = es := by
  induction ds generalizing es with
  | nil => exact (List.map_eq_nil_iff.mp hshape.symm).symm
  | cons d ds ih =>
    cases es with
    | nil => cases hshape
    | cons e es =>
      obtain ⟨h1, h2⟩ := List.cons.inj hshape
      obtain ⟨h3, h4⟩ := List.cons.inj hstride
      rw [ih h2 h4, show d = e from by cases d; cases e; simp_all]

section Assign
variable {E : Environment V} (hE : Documented E) {s : State V} {out : NpArray}
include hE

/-- An input without a conflict shares no element with the result, or has every element at the same index. -/
theorem free_of_no_conflict (hout : out.Injective) {a b : NpArray} (hno : overlapConflict E out [.array a] = false)
    (hb : Shows out.shape (.array a : Operand V) b) (ha : Fits a.shape out.shape) : (Operand.array b : Operand V).Free out := by
  rintro c hc i hi j hj hij heq
  obtain rfl := Operand.array.inj hc
  obtain ⟨_, _, hcell⟩ := hb.2 a rfl
  rw [hcell j hj] at heq
  have hshare := hE.share out a i _ hi (coord_mem ha hj) heq
  simp only [overlapConflict, List.any_cons, List.any_nil, Bool.or_false, hshare, Bool.true_and, Bool.not_eq_false',
    Bool.and_eq_true, beq_iff_eq, Prod.mk.injEq] at hno
  obtain ⟨⟨⟨_, hstrides⟩, hshape⟩, hbase, hdata⟩ := hno
  have hself : a.cell (coord a.shape j) = out.cell j := by
    rw [← hshape, coord_self hj, NpArray.cell, NpArray.cell, hbase, hdata, dims_eq hshape hstrides]
  rw [hself] at heq
  exact hij (hout i hi j hj heq)

theorem written_copyTo (hout : out.Injective) (hbase : out.base < s.nbase) {x y : Operand V}
    (h : Stands E (some out) s s out.shape out.dtype x y) : Written s (copyTo E s y out) out (x.at E out.dtype s.mem) := by
  unfold copyTo
  split
  · obtain ⟨hkept, hstands, _⟩ := stands_toBhc h (by simpa using hbase)
    refine Written.of_kept hkept ?_
    exact (written_targetIdentity hE hout (hstands.free out rfl)).congr hstands.value
  · exact (written_targetIdentity hE hout (h.free out rfl)).congr h.value

/-- What `assign` finds if the argument fits. -/
theorem broadcastPair_of_fits {x : Operand V} (h : Fits x.shape out.shape) : ∃ y o, broadcastPair E x out = some (y, o) ∧
    Presents out.shape x y ∧ Shows out.shape (.array out : Operand V) o := by
  cases hp : broadcastPair E x out with
  | none => exact absurd ⟨out.shape, h, fits_refl _⟩ (broadcastPair_none hE hp)
  | some p =>
    obtain ⟨y, o⟩ := p
    obtain ⟨t, ht, hy, ho⟩ := broadcastPair_some hE hp
    obtain rfl := (@common_append_singleton V [x] out t ht).mpr (by simpa using h)
    exact ⟨y, o, rfl, hy, ho⟩

/-- No temporary array is needed for an argument on another base. -/
theorem assign_of_base_ne {x y : Operand V} {o : NpArray} (hp : broadcastPair E x out = some (y, o))
    (hapart : ∀ a, x = .array a → a.base ≠ out.base) (depth : ℕ) :
    assign E (depth + 1) x out s = (.ok (), copyTo E s y o) ∧ ∀ b, y = .array b → b.base ≠ o.base := by
  obtain ⟨t, _, hy, ho⟩ := broadcastPair_some hE hp
  have hne : ∀ b, y = .array b → b.base ≠ o.base := by
    intro b hb
    obtain ⟨a, rfl, hshow⟩ := hy.array hb
    rw [(hshow.2 a rfl).1, (ho.2 out rfl).1]
    exact hapart a rfl
  have hno : overlapConflict E o [y] = false := by
    cases y with
    | scalar v d => rfl
    | array b => simp [overlapConflict, hE.apart o b (hne b rfl).symm]
  rw [assign, hp]
  dsimp only
  rw [hno, if_neg Bool.false_ne_true]
  exact ⟨rfl, hne⟩

theorem assign_apart {x : Operand V} (hx : x.Known s) (hbase : out.base < s.nbase) (hout : out.Injective)
    (hfits : Fits x.shape out.shape) (hapart : ∀ a, x = .array a → a.base ≠ out.base) (depth : ℕ) :
    (assign E (depth + 1) x out s).1 = .ok () ∧
      Written s (assign E (depth + 1) x out s).2 out (x.at E out.dtype s.mem) := by
  obtain ⟨y, o, hp, hy, ho⟩ := broadcastPair_of_fits hE hfits
  obtain ⟨hobase, hodtype, _⟩ := ho.2 out rfl
  obtain ⟨heq, hne⟩ := @assign_of_base_ne V E hE s out x y o hp hapart depth
  rw [heq]
  refine ⟨rfl, Written.of_shows ?_ ho⟩
  rw [← hodtype]
  refine written_copyTo hE (injective_of_shows hout ho) (hobase ▸ hbase) ?_
  rw [ho.1]
  refine hy.stands hx ?_ _
  rintro out' ⟨⟩
  exact free_of_base_ne hne

/-- A new array is filled. -/
theorem assign_empty {x : Operand V} (hx : x.Known s) {shape : List ℕ} (hfits : Fits x.shape shape) (dtype : ℕ)
    (bohrium : Bool) (depth : ℕ) : ∃ s₁, assign E (depth + 1) x (empty s shape dtype bohrium).1
        (empty s shape dtype bohrium).2 = (.ok (), s₁) ∧
      Made s s₁ (empty s shape dtype bohrium).1 shape dtype (x.at E dtype s.mem) := by
  have hkept := kept_empty s shape dtype bohrium
  obtain ⟨hok, hwritten⟩ := assign_apart hE (fun a ha => (hx a ha).trans_le hkept.nbase) (Nat.lt_succ_self s.nbase)
    (injective_empty s shape dtype bohrium) (by rw [shape_empty]; exact hfits) (fun a ha => Nat.ne_of_lt (hx a ha)) depth
  exact ⟨_, Prod.ext hok rfl, Written.made (Kept.refl _ _) hwritten⟩

/-- A new array is copied into an older one. -/
theorem Made.assign {s₁ : State V} {tmp : NpArray} {t : List ℕ} {d : ℕ} {val : List ℕ → V} (h : Made s s₁ tmp t d val)
    (hbase : out.base < s.nbase) (hout : out.Injective) (hfits : Fits t out.shape) (depth : ℕ) :
    (assign E (depth + 1) (.array tmp) out s₁).1 = .ok () ∧ Written s (assign E (depth + 1) (.array tmp) out s₁).2 out
      fun idx => E.convert d out.dtype (val (coord t idx)) := by
  obtain ⟨hkept, hnew, hknown, hshape, hdtype, hval⟩ := h
  have hself : (Operand.array tmp : Operand V).Known s₁ := by
    rintro a ha
    obtain rfl := Operand.array.inj ha
    exact hknown
  have hapart : ∀ a, (Operand.array tmp : Operand V) = .array a → a.base ≠ out.base := by
    rintro a ha
    obtain rfl := Operand.array.inj ha
    omega
  have htfits : Fits tmp.shape out.shape := hshape ▸ hfits
  obtain ⟨hok, hwritten⟩ := assign_apart hE hself (hbase.trans_le hkept.nbase) hout htfits hapart depth
  refine ⟨hok, (Written.of_kept hkept hwritten).congr fun idx hidx => ?_⟩
  rw [Operand.at, hdtype, hshape, hval _ (coord_mem hfits hidx)]

/-- With a conflict, the argument is first copied to a temporary array. -/
theorem assign_of_conflict {x y : Operand V} {o : NpArray} (hx : x.Known s) (hp : broadcastPair E x out = some (y, o))
    (hc : overlapConflict E o [y] = true) (depth : ℕ) : ∃ tmp s₁, Made s s₁ tmp o.shape o.dtype (y.at E o.dtype s.mem) ∧
      assign E (depth + 2) x out s = assign E (depth + 1) (.array tmp) o s₁ := by
  obtain ⟨t, _, hy, ho⟩ := broadcastPair_some hE hp
  have hyknown : y.Known s := (@Presents.stands V E none s t x y hy hx (by simp) 0).known
  have hyfits : Fits y.shape o.shape := by
    cases y with
    | scalar v d => exact fits_nil _
    | array b =>
      obtain ⟨a, _, hshow⟩ := hy.array rfl
      show Fits b.shape o.shape
      rw [hshow.1, ho.1]
      exact fits_refl _
  obtain ⟨s₁, heq, hmade⟩ := assign_empty hE hyknown hyfits o.dtype (check s o) depth
  refine ⟨_, s₁, hmade, ?_⟩
  rw [assign, hp]
  dsimp only
  rw [if_pos hc]
  dsimp only [emptyLike]
  rw [heq]

/-- Whatever the operands share, `assign` copies what the argument was before. -/
theorem assign_of_fits {x : Operand V} (hx : x.Known s) (hbase : out.base < s.nbase) (hout : out.Injective)
    (hfits : Fits x.shape out.shape) (depth : ℕ) : (assign E (depth + 2) x out s).1 = .ok () ∧
      Written s (assign E (depth + 2) x out s).2 out (x.at E out.dtype s.mem) := by
  obtain ⟨y, o, hp, hy, ho⟩ := broadcastPair_of_fits hE hfits
  obtain ⟨hobase, hodtype, _⟩ := ho.2 out rfl
  have hoinj := injective_of_shows hout ho
  cases hc : overlapConflict E o [y] with
  | false =>
    rw [assign, hp]
    dsimp only
    rw [hc, if_neg Bool.false_ne_true]
    refine ⟨rfl, Written.of_shows ?_ ho⟩
    rw [← hodtype]
    refine written_copyTo hE hoinj (hobase ▸ hbase) ?_
    rw [ho.1]
    refine hy.stands hx ?_ _
    rintro out' ⟨⟩ b rfl
    obtain ⟨a, _, hshow⟩ := hy.array rfl
    have hshape : b.shape = o.shape := hshow.1.trans ho.1.symm
    have hself : Shows o.shape (.array b : Operand V) b := hshape ▸ shows_self b
    exact free_of_no_conflict hE hoinj hc hself (hshape ▸ fits_refl _) b rfl
  | true =>
    obtain ⟨tmp, s₁, hmade, heq⟩ := assign_of_conflict hE hx hp hc depth
    obtain ⟨hok, hwritten⟩ := hmade.assign hE (hobase ▸ hbase) hoinj (fits_refl _) depth
    rw [heq]
    refine ⟨hok, Written.of_shows (hwritten.congr fun idx hidx => ?_) ho⟩
    rw [hE.convert_self, coord_self hidx, ← hodtype]
    rw [ho.1] at hidx
    rw [← hy.read hidx]
    cases y with
    | scalar v d => rfl
    | array b =>
      obtain ⟨a, _, hshow⟩ := hy.array rfl
      rw [Operand.at, Operand.read, hshow.1, coord_self hidx]

/-- It does not fail either where only the result can be broadcast. -/
theorem assign_of_compatible {x : Operand V} (hx : x.Known s) (hbase : out.base < s.nbase) {t : List ℕ}
    (ht : Fits x.shape t ∧ Fits out.shape t) (depth : ℕ) : (assign E (depth + 2) x out s).1 = .ok () := by
  cases hp : broadcastPair E x out with
  | none => exact absurd ⟨t, ht⟩ (broadcastPair_none hE hp)
  | some p =>
    obtain ⟨y, o⟩ := p
    cases hc : overlapConflict E o [y] with
    | false =>
      rw [assign, hp]
      dsimp only
      rw [hc, if_neg Bool.false_ne_true]
    | true =>
      obtain ⟨tmp, s₁, hmade, heq⟩ := assign_of_conflict hE hx hp hc depth
      obtain ⟨_, _, _, ho⟩ := broadcastPair_some hE hp
      have hapart : ∀ a, (Operand.array tmp : Operand V) = .array a → a.base ≠ o.base := by
        rintro a ha
        obtain rfl := Operand.array.inj ha
        rw [(ho.2 out rfl).1]
        exact (Nat.ne_of_lt (hbase.trans_le hmade.new)).symm
      cases hp' : broadcastPair E (.array tmp) o with
      | none => exact absurd ⟨o.shape, hmade.shape ▸ fits_refl tmp.shape, fits_refl _⟩ (broadcastPair_none hE hp')
      | some q =>
        obtain ⟨y', o'⟩ := q
        rw [heq, (assign_of_base_ne hE hp' hapart depth).1]

/-- It fails if the shapes are incompatible. -/
theorem assign_refused {x : Operand V} (hx : ¬ ∃ t, Fits x.shape t ∧ Fits out.shape t) (depth : ℕ) :
    assign E (depth + 1) x out s = (.error .shapeMismatch, s) := by
  rw [assign]
  cases hp : broadcastPair E x out with
  | none => rfl
  | some p =>
    obtain ⟨t, ht, _, _⟩ := broadcastPair_some hE hp
    exact absurd ⟨t, ht.1 x (by simp), ht.1 (.array out) (by simp)⟩ hx

/-- An assignment is right exactly if the argument fits, or if the shapes cannot be broadcast at all. -/
theorem assignRight_iff_fits {x : Operand V} (hx : x.Known s) (hbase : out.base < s.nbase) (hout : out.Injective) (depth : ℕ) :
    AssignRight E (depth + 2) s x out ↔ Fits x.shape out.shape ∨ ¬ ∃ t, Fits x.shape t ∧ Fits out.shape t := by
  unfold AssignRight
  by_cases hfits : Fits x.shape out.shape
  · rw [if_pos hfits]
    exact iff_of_true (assign_of_fits hE hx hbase hout hfits depth) (Or.inl hfits)
  · rw [if_neg hfits, or_iff_right hfits]
    constructor
    · rintro ⟨⟨e, he⟩, _⟩ ⟨t, ht⟩
      rw [assign_of_compatible hE hx hbase ht depth] at he
      cases he
    · intro hno
      rw [assign_refused hE hno]
      exact ⟨⟨_, rfl⟩, Kept.refl _ _⟩

end Assign

end Bohrium.Npbackend.Ufunc
