import Bohrium.Library.CInt
import Bohrium.Library.Slots
import Mathlib.Data.UInt

/-! # Dictionaries

The dictionary of `iniparser`: a table of strings that is searched from its start, with a hash beside each key, and
doubled when it is full. -/
namespace Bohrium.Iniparser
set_option autoImplicit false

/-- A C string without the zero at its end. -/
abbrev Bytes := List UInt8

def DICTMINSZ : ℤ := 128

/-- The characters are signed. -/
def dictionaryHash (key : Bytes) : UInt32 :=
  let hash := key.foldl (fun (hash : UInt32) c =>
    let hash := hash + c.toInt8.toInt32.toUInt32
    let hash := hash + (hash <<< 10)
    hash ^^^ (hash >>> 6)) 0
  let hash := hash + (hash <<< 3)
  let hash := hash ^^^ (hash >>> 11)
  hash + (hash <<< 15)

/-- One place of the three arrays; a string is `none` for `NULL`. -/
structure Slot where
  key : Option Bytes
  val : Option Bytes
  hash : UInt32
  deriving DecidableEq, Repr

/-- What `calloc` leaves. -/
def Slot.free : Slot := ⟨none, none, 0⟩

/-- The size is the number of slots. -/
structure Dictionary where
  n : ℤ
  slots : List Slot
  deriving DecidableEq, Repr

namespace Dictionary

def new (size : ℤ) : Dictionary := ⟨0, List.replicate (if size < DICTMINSZ then DICTMINSZ else size).toNat .free⟩

/-- The loop that `get`, `set` and `unset` begin with. -/
def find (d : Dictionary) (key : Bytes) : Option ℕ :=
  d.slots.findIdx? fun s => s.key ≠ none ∧ dictionaryHash key = s.hash ∧ s.key = some key

def get (d : Dictionary) (key : Bytes) (default : Option Bytes) : Option Bytes :=
  (d.find key).elim default fun i => (d.slots.getD i .free).val

/-- The slots after `mem_double`, which is called if no slot is free and gives the memory. -/
def grown (d : Dictionary) : List Slot :=
  if d.n = d.slots.length then d.slots ++ List.replicate d.slots.length .free else d.slots

/-- What `dictionary_set` does to a dictionary when it gets its memory, `none` if the loop for a free slot ends behind
the arrays. -/
def set (d : Dictionary) (key : Bytes) (val : Option Bytes) : Option Dictionary :=
  (if 0 < d.n then d.find key else none).elim
    ((d.grown.findIdx? fun s => s.key = none).map fun i => ⟨d.n + 1, d.grown.set i ⟨some key, val, dictionaryHash key⟩⟩)
    fun i => some { d with slots := d.slots.modify i fun s => { s with val := val } }

def unset (d : Dictionary) (key : Bytes) : Dictionary :=
  (d.find key).elim d fun i => ⟨d.n - 1, d.slots.set i .free⟩

/-! ## What a dictionary stands for -/

/-- The value of each key that is in the dictionary. -/
def map (d : Dictionary) : Bytes → Option (Option Bytes) := Slots.lookup Slot.key Slot.val d.slots

def keys (d : Dictionary) : List Bytes := d.slots.filterMap Slot.key

/-- The state between two calls. -/
structure Wf (d : Dictionary) : Prop where
  count : d.n = d.slots.countP fun s => s.key.isSome
  hashed : ∀ s ∈ d.slots, ∀ key ∈ s.key, s.hash = dictionaryHash key
  once : Slots.Once Slot.key d.slots
  cleared : ∀ s ∈ d.slots, s.key = none → s = .free
  room : d.slots ≠ []

theorem wf_new (size : ℤ) : (new size).Wf where
  count := by
    have hnone : (new size).slots.countP (fun s => s.key.isSome) = 0 := by
      rw [List.countP_eq_zero]
      intro s hs
      rw [List.eq_of_mem_replicate hs]
      simp [Slot.free]
    rw [hnone]
    rfl
  hashed s hs key hkey := by
    rw [List.eq_of_mem_replicate hs] at hkey
    cases hkey
  once i j k hi _ := by
    have hfree := @Slots.bind_append_free Slot Bytes Slot.key [] .free rfl (if size < DICTMINSZ then DICTMINSZ else size).toNat i
    rw [List.nil_append] at hfree
    rw [new, hfree] at hi
    cases hi
  cleared s hs _ := List.eq_of_mem_replicate hs
  room := by
    rw [new, Ne, List.replicate_eq_nil_iff, DICTMINSZ]
    split <;> omega

theorem map_new (size : ℤ) : (new size).map = fun _ => none := by
  funext key
  rw [map, Slots.lookup_eq_none]
  intro s hs
  rw [List.eq_of_mem_replicate hs]
  exact (Option.some_ne_none key).symm

section
variable {d : Dictionary} (hwf : d.Wf) (key : Bytes)

include hwf

/-- The hash never hides a key. -/
theorem find_eq_some (i : ℕ) : d.find key = some i ↔ d.slots[i]?.bind Slot.key = some key := by
  have hright : ∀ j, d.find key = some j → d.slots[j]?.bind Slot.key = some key := by
    intro j hj
    obtain ⟨hlt, hp, -⟩ := List.findIdx?_eq_some_iff_getElem.mp hj
    rw [decide_eq_true_eq] at hp
    rw [List.getElem?_eq_getElem hlt, Option.bind_some]
    exact hp.2.2
  constructor
  · exact hright i
  · intro hi
    cases hfind : d.find key with
    | none =>
      obtain ⟨s, hs, hkey⟩ := Option.bind_eq_some_iff.mp hi
      have hmem := List.mem_of_getElem? hs
      have hnot := List.findIdx?_eq_none_iff.mp hfind s hmem
      rw [decide_eq_false_iff_not] at hnot
      exact absurd ⟨by rw [hkey]; exact Option.some_ne_none key, (hwf.hashed s hmem key hkey).symm, hkey⟩ hnot
    | some j => rw [hwf.once i j key hi (hright j hfind)]

theorem find_eq_none : d.find key = none ↔ ∀ i : ℕ, d.slots[i]?.bind Slot.key ≠ some key := by
  rw [Option.eq_none_iff_forall_ne_some]
  exact forall_congr' fun i => not_congr (find_eq_some hwf key i)

theorem get_eq (default : Option Bytes) : d.get key default = (d.map key).getD default := by
  cases hfind : d.find key with
  | none =>
    have hnone : d.map key = none := by
      rw [map, Slots.lookup_eq_none]
      intro s hs hkey
      obtain ⟨i, hi⟩ := List.getElem?_of_mem hs
      apply (find_eq_none hwf key).mp hfind i
      rw [hi]
      exact hkey
    rw [get, hfind, hnone]
    rfl
  | some i =>
    obtain ⟨s, hs, hkey⟩ := Option.bind_eq_some_iff.mp ((find_eq_some hwf key i).mp hfind)
    rw [get, hfind, map, Slots.lookup_of_mem hwf.once (List.mem_of_getElem? hs) hkey, Option.elim_some, List.getD_eq_getElem?_getD, hs]
    rfl

/-- A full table is doubled, so there is a free slot. -/
theorem wf_grown : (Dictionary.mk d.n d.grown).Wf ∧ (Dictionary.mk d.n d.grown).map = d.map ∧
    ∃ i, (d.grown.findIdx? fun s => s.key = none) = some i ∧ d.grown[i]? = some .free := by
  have hgrown : (Dictionary.mk d.n d.grown).Wf ∧ (Dictionary.mk d.n d.grown).map = d.map ∧ ∃ s ∈ d.grown, s.key = none := by
    have hle : d.slots.countP (fun s => s.key.isSome) ≤ d.slots.length := List.countP_le_length
    have hcount := hwf.count
    rw [grown]
    split
    · next hfull =>
      refine ⟨⟨?_, ?_, ?_, ?_, ?_⟩, ?_, ?_⟩
      · show d.n = _
        rw [List.countP_append, List.countP_replicate, if_neg (by simp [Slot.free]), Nat.add_zero, hcount]
      · intro s hs k hk
        obtain hs | hs := List.mem_append.mp hs
        · exact hwf.hashed s hs k hk
        · rw [List.eq_of_mem_replicate hs] at hk
          cases hk
      · exact Slots.once_append_free rfl hwf.once _
      · intro s hs hk
        obtain hs | hs := List.mem_append.mp hs
        · exact hwf.cleared s hs hk
        · exact List.eq_of_mem_replicate hs
      · exact fun h => hwf.room (List.append_eq_nil_iff.mp h).1
      · exact funext fun k => Slots.lookup_append_free rfl _ k
      · refine ⟨.free, List.mem_append_right _ ?_, rfl⟩
        exact List.mem_replicate.mpr ⟨fun h => hwf.room (List.length_eq_zero_iff.mp h), rfl⟩
    · next hroom =>
      refine ⟨hwf, rfl, ?_⟩
      by_contra hall
      have heq : d.slots.countP (fun s => s.key.isSome) = d.slots.length := by
        rw [List.countP_eq_length]
        intro s hs
        rw [Option.isSome_iff_ne_none]
        exact fun h => hall ⟨s, hs, h⟩
      omega
  obtain ⟨hwf', hmap, s, hs, hkey⟩ := hgrown
  refine ⟨hwf', hmap, ?_⟩
  cases hfree : d.grown.findIdx? fun s => s.key = none with
  | none =>
    have hnot := List.findIdx?_eq_none_iff.mp hfree s hs
    rw [hkey] at hnot
    cases hnot
  | some i =>
    obtain ⟨hlt, hp, -⟩ := List.findIdx?_eq_some_iff_getElem.mp hfree
    rw [decide_eq_true_eq] at hp
    refine ⟨i, rfl, ?_⟩
    rw [List.getElem?_eq_getElem hlt, hwf'.cleared _ (List.getElem_mem hlt) hp]

theorem set_spec (val : Option Bytes) :
    ∃ d', d.set key val = some d' ∧ d'.Wf ∧ d'.map = Function.update d.map key (some val) := by
  cases hfind : d.find key with
  | some i =>
    obtain ⟨s, hs, hkey⟩ := Option.bind_eq_some_iff.mp ((find_eq_some hwf key i).mp hfind)
    obtain ⟨hlt, hget⟩ := List.getElem?_eq_some_iff.mp hs
    have hmem := List.mem_of_getElem? hs
    have hpos : 0 < d.n := by
      rw [hwf.count]
      have hsome : 0 < d.slots.countP fun s => s.key.isSome := List.countP_pos_iff.mpr ⟨s, hmem, by rw [hkey]; rfl⟩
      exact_mod_cast hsome
    have hmodify : d.slots.modify i (fun s => { s with val := val }) = d.slots.set i { s with val := val } := by
      rw [List.modify_eq_set_getElem?, hs]
      rfl
    have hbind : d.slots[i]?.bind Slot.key = some key := by rw [hs]; exact hkey
    refine ⟨{ d with slots := d.slots.set i { s with val := val } }, ?_, ⟨?_, ?_, ?_, ?_, ?_⟩, ?_⟩
    · rw [set, if_pos hpos, hfind, Option.elim_some, hmodify]
    · have hcount := Slots.countP_set hs { s with val := val } fun s => s.key.isSome
      show d.n = _
      rw [hwf.count]
      exact_mod_cast (Nat.add_right_cancel hcount).symm
    · intro t ht k hk
      obtain ht | rfl := List.mem_or_eq_of_mem_set ht
      · exact hwf.hashed t ht k hk
      · exact hwf.hashed s hmem k hk
    · apply Slots.once_set hwf.once hlt
      intro k hk j hj
      obtain rfl : key = k := Option.some.inj (hkey.symm.trans hk)
      exact hwf.once j i key hj hbind
    · intro t ht hk
      obtain ht | rfl := List.mem_or_eq_of_mem_set ht
      · exact hwf.cleared t ht hk
      · exact absurd (hkey.symm.trans hk) (Option.some_ne_none key)
    · exact fun h => hwf.room ((List.set_eq_nil_iff _ _).mp h)
    · apply @Slots.lookup_write _ _ _ Slot.key Slot.val _ _ hwf.once i hlt { s with val := val } _ hkey
      · intro k hk
        exact Option.some.inj (hk.symm.trans hbind)
      · exact fun j hj => hwf.once j i key hj hbind
  | none =>
    have hnone := (find_eq_none hwf key).mp hfind
    obtain ⟨hwf', hmap, i, hfree, hi⟩ := wf_grown hwf
    obtain ⟨hlt, -⟩ := List.getElem?_eq_some_iff.mp hi
    have habsent : ∀ j : ℕ, d.grown[j]?.bind Slot.key ≠ some key := by
      have hgrown : d.map key = none := by
        rw [map, Slots.lookup_eq_none]
        intro s hs hk
        obtain ⟨j, hj⟩ := List.getElem?_of_mem hs
        apply hnone j
        rw [hj]
        exact hk
      rw [← hmap, map, Slots.lookup_eq_none] at hgrown
      intro j hj
      obtain ⟨s, hs, hk⟩ := Option.bind_eq_some_iff.mp hj
      exact hgrown s (List.mem_of_getElem? hs) hk
    have hold : d.grown[i]?.bind Slot.key = none := by rw [hi]; rfl
    refine ⟨⟨d.n + 1, d.grown.set i ⟨some key, val, dictionaryHash key⟩⟩, ?_, ⟨?_, ?_, ?_, ?_, ?_⟩, ?_⟩
    · rw [set, hfind, ite_self, hfree]
      rfl
    · have hcount := Slots.countP_set hi ⟨some key, val, dictionaryHash key⟩ fun s => s.key.isSome
      have hn : d.n = d.grown.countP fun s => s.key.isSome := hwf'.count
      show d.n + 1 = _
      rw [hn]
      exact_mod_cast hcount.symm
    · intro t ht k hk
      obtain ht | rfl := List.mem_or_eq_of_mem_set ht
      · exact hwf'.hashed t ht k hk
      · rw [← Option.some.inj hk]
    · apply Slots.once_set hwf'.once hlt
      intro k hk j hj
      obtain rfl := Option.some.inj hk
      exact absurd hj (habsent j)
    · intro t ht hk
      obtain ht | rfl := List.mem_or_eq_of_mem_set ht
      · exact hwf'.cleared t ht hk
      · cases hk
    · exact fun h => hwf'.room ((List.set_eq_nil_iff _ _).mp h)
    · rw [← hmap]
      apply Slots.lookup_write hwf'.once hlt rfl
      · intro k hk
        cases hold.symm.trans hk
      · exact fun j hj => absurd hj (habsent j)

theorem unset_spec : (d.unset key).Wf ∧ (d.unset key).map = Function.update d.map key none := by
  cases hfind : d.find key with
  | none =>
    rw [unset, hfind, Option.elim_none]
    refine ⟨hwf, (Function.update_eq_self_iff.mpr ?_).symm⟩
    rw [map, eq_comm, Slots.lookup_eq_none]
    intro s hs hk
    obtain ⟨j, hj⟩ := List.getElem?_of_mem hs
    apply (find_eq_none hwf key).mp hfind j
    rw [hj]
    exact hk
  | some i =>
    have hbind := (find_eq_some hwf key i).mp hfind
    obtain ⟨s, hs, hkey⟩ := Option.bind_eq_some_iff.mp hbind
    obtain ⟨hlt, -⟩ := List.getElem?_eq_some_iff.mp hs
    rw [unset, hfind]
    refine ⟨⟨?_, ?_, ?_, ?_, ?_⟩, Slots.lookup_free hwf.once hlt rfl hbind⟩
    · have hcount := Slots.countP_set hs .free fun s => s.key.isSome
      rw [hkey] at hcount
      show d.n - 1 = _
      rw [hwf.count, Int.sub_eq_iff_eq_add]
      exact_mod_cast hcount.symm
    · intro t ht k hk
      obtain ht | rfl := List.mem_or_eq_of_mem_set ht
      · exact hwf.hashed t ht k hk
      · cases hk
    · apply Slots.once_set hwf.once hlt
      intro k hk
      cases hk
    · intro t ht hk
      obtain ht | rfl := List.mem_or_eq_of_mem_set ht
      · exact hwf.cleared t ht hk
      · rfl
    · exact fun h => hwf.room ((List.set_eq_nil_iff _ _).mp h)

theorem keys_spec : d.keys.Nodup ∧ d.n = d.keys.length ∧ ∀ k, k ∈ d.keys ↔ (d.map k).isSome := by
  refine ⟨Slots.nodup_keys hwf.once, ?_, fun k => ?_⟩
  · rw [hwf.count, keys, List.length_filterMap_eq_countP]
  · rw [keys, List.mem_filterMap, Option.isSome_iff_ne_none, map, Ne, Slots.lookup_eq_none]
    simp

end

/-! ## Memory -/

/-- How a call can fail. -/
inductive Fault
  /-- Twice the bytes of an array are no `int`, and `mem_double` doubles an `int`. -/
  | overflow
  /-- `mem_double` gives `NULL`: the array is lost, and `-1` is returned. -/
  | cannotGrow
  /-- `xstrdup` gives `NULL`: the string is lost, and `0` is returned. -/
  | notCopied
  /-- The slot for the key is behind the arrays. -/
  | behind
  deriving DecidableEq, Repr

/-- `dictionary_set` with an allocator that is asked for numbers of bytes. -/
def dictionarySet (alloc : ℕ → Bool) (d : Dictionary) (key : Bytes) (val : Option Bytes) : Except Fault Dictionary :=
  let size := d.slots.length
  let found := if 0 < d.n then d.find key else none
  if found = none ∧ d.n = size ∧ ¬CInt.FitsInt32 (2 * (8 * size)) then .error .overflow
  else if found = none ∧ d.n = size ∧ ¬(alloc (2 * (8 * size)) ∧ alloc (2 * (4 * size))) then .error .cannotGrow
  else if (found = none ∧ ¬alloc (key.length + 1)) ∨ (∃ v ∈ val, ¬alloc (v.length + 1)) then .error .notCopied
  else (d.set key val).elim (.error .behind) .ok

/-! ## Runs -/

inductive Op
  | set (key : Bytes) (val : Option Bytes)
  | unset (key : Bytes)
  deriving DecidableEq, Repr

/-- A call, and what the allocator can give while it runs. -/
structure Call where
  alloc : ℕ → Bool
  op : Op

/-- The call may add a key. -/
def Call.sets (c : Call) : Bool := c.op matches .set _ _

def step (d : Dictionary) (c : Call) : Except Fault Dictionary := match c.op with
  | .set key val => d.dictionarySet c.alloc key val
  | .unset key => .ok (d.unset key)

/-- What a call does to the map. -/
def Op.effect (m : Bytes → Option (Option Bytes)) : Op → Bytes → Option (Option Bytes)
  | .set key val => Function.update m key (some val)
  | .unset key => Function.update m key none

/-- When calls on a dictionary of `n` keys may fail: a table of `2 ^ 27` keys cannot grow, and memory can be refused. -/
def Fault.Due (n : ℤ) (calls : List Call) : Fault → Prop
  | .overflow => 2 ^ 27 < n + calls.countP Call.sets
  | .cannotGrow => ∃ c ∈ calls, ∃ bytes, c.alloc bytes = false
  | .notCopied => ∃ c ∈ calls, ∃ bytes, c.alloc bytes = false
  | .behind => False

theorem Fault.due_mono {n n' : ℤ} {calls calls' : List Call} {fault : Fault} (hsub : calls ⊆ calls')
    (hn : n + calls.countP Call.sets ≤ n' + calls'.countP Call.sets) (h : fault.Due n calls) : fault.Due n' calls' := by
  have hrefused : (∃ c ∈ calls, ∃ bytes, c.alloc bytes = false) → ∃ c ∈ calls', ∃ bytes, c.alloc bytes = false :=
    fun ⟨c, hc, hbytes⟩ => ⟨c, hsub hc, hbytes⟩
  cases fault with
  | overflow => exact lt_of_lt_of_le h hn
  | cannotGrow => exact hrefused h
  | notCopied => exact hrefused h
  | behind => exact h

theorem n_set_le {d d' : Dictionary} {key : Bytes} {val : Option Bytes} (h : d.set key val = some d') : d'.n ≤ d.n + 1 := by
  rw [set] at h
  cases hfound : if 0 < d.n then d.find key else none with
  | none =>
    rw [hfound, Option.elim_none] at h
    obtain ⟨i, -, rfl⟩ := Option.map_eq_some_iff.mp h
    exact le_rfl
  | some i =>
    rw [hfound, Option.elim_some] at h
    obtain rfl := Option.some.inj h
    exact Int.le_add_one le_rfl

theorem n_unset_le (d : Dictionary) (key : Bytes) : (d.unset key).n ≤ d.n := by
  rw [unset]
  cases d.find key with
  | none => exact le_rfl
  | some i => exact Int.sub_le_self _ Int.one_nonneg

/-- One call gives the dictionary of the map it makes, or fails with a reason. -/
theorem step_spec {d : Dictionary} (hwf : d.Wf) (c : Call) : match d.step c with
    | .ok d' => d'.Wf ∧ d'.map = c.op.effect d.map ∧ d'.n ≤ d.n + [c].countP Call.sets
    | .error fault => fault.Due d.n [c] := by
  obtain ⟨alloc, op⟩ := c
  cases op with
  | unset key =>
    obtain ⟨hwf', hmap⟩ := unset_spec hwf key
    refine ⟨hwf', hmap, (n_unset_le d key).trans ?_⟩
    exact Int.le_add_of_nonneg_right (Int.natCast_nonneg _)
  | set key val =>
    obtain ⟨d', hset, hwf', hmap⟩ := set_spec hwf key val
    have hrefused : ∀ bytes, alloc bytes = false → ∃ c ∈ [(⟨alloc, .set key val⟩ : Call)], ∃ bytes, c.alloc bytes = false :=
      fun bytes h => ⟨_, List.mem_singleton_self _, bytes, h⟩
    simp only [step, dictionarySet]
    generalize (if 0 < d.n then d.find key else none) = found
    split_ifs with hover hgrow hcopy
    · obtain ⟨-, hfull, hbig⟩ := hover
      rw [CInt.FitsInt32] at hbig
      show 2 ^ 27 < d.n + (1 : ℤ)
      omega
    · obtain ⟨-, -, hno⟩ := hgrow
      rw [not_and_or] at hno
      obtain hno | hno := hno
      · exact hrefused _ (Bool.eq_false_iff.mpr hno)
      · exact hrefused _ (Bool.eq_false_iff.mpr hno)
    · obtain ⟨-, hno⟩ | ⟨v, -, hno⟩ := hcopy
      · exact hrefused _ (Bool.eq_false_iff.mpr hno)
      · exact hrefused _ (Bool.eq_false_iff.mpr hno)
    · rw [hset]
      exact ⟨hwf', hmap, n_set_le hset⟩

theorem foldlM_step {d : Dictionary} (hwf : d.Wf) (calls : List Call) : match calls.foldlM step d with
    | .ok d' => d'.Wf ∧ d'.map = (calls.map Call.op).foldl Op.effect d.map
    | .error fault => fault.Due d.n calls := by
  induction calls generalizing d with
  | nil => exact ⟨hwf, rfl⟩
  | cons c calls ih =>
    have hstep := step_spec hwf c
    have hcount : ((c :: calls).countP Call.sets : ℤ) = [c].countP Call.sets + calls.countP Call.sets := by
      rw [← List.singleton_append, List.countP_append, Nat.cast_add]
    rw [List.foldlM_cons]
    cases hd : d.step c with
    | error fault =>
      rw [hd] at hstep
      exact Fault.due_mono (List.cons_subset_cons c (List.nil_subset calls)) (by omega) hstep
    | ok mid =>
      rw [hd] at hstep
      obtain ⟨hwf', hmap, hn⟩ := hstep
      have hrest := ih hwf'
      have hbind : (do let d ← Except.ok (ε := Fault) mid; calls.foldlM step d) = calls.foldlM step mid := rfl
      rw [hbind]
      cases hrun : calls.foldlM step mid with
      | error fault =>
        rw [hrun] at hrest
        exact Fault.due_mono (List.subset_cons_self c calls) (by omega) hrest
      | ok d' =>
        rw [hrun] at hrest
        exact ⟨hrest.1, by rw [hrest.2, hmap]; rfl⟩

/-- Calls on a new dictionary fail only if memory is refused or more than `2 ^ 27` keys are set, and no slot is written
behind the arrays. If they do not fail, the dictionary gives what a finite map would, and `n` counts the keys, none of
them stored twice. -/
theorem run_refines (size : ℤ) (calls : List Call) : match calls.foldlM step (new size) with
    | .ok d => (∀ key default, d.get key default = ((calls.map Call.op).foldl Op.effect (fun _ => none) key).getD default) ∧
      d.keys.Nodup ∧ d.n = d.keys.length ∧ ∀ key, key ∈ d.keys ↔ ((calls.map Call.op).foldl Op.effect (fun _ => none) key).isSome
    | .error fault => fault.Due 0 calls := by
  have hrun := foldlM_step (wf_new size) calls
  cases hd : calls.foldlM step (new size) with
  | error fault =>
    rw [hd] at hrun
    exact hrun
  | ok d =>
    rw [hd] at hrun
    obtain ⟨hwf, hmap⟩ := hrun
    rw [map_new] at hmap
    obtain ⟨hnodup, hcount, hmem⟩ := keys_spec hwf
    refine ⟨fun key default => ?_, hnodup, hcount, fun key => ?_⟩
    · rw [get_eq hwf, hmap]
    · rw [hmem, hmap]

end Dictionary

end Bohrium.Iniparser
