import Bohrium.Library.OrderedMap
import Bohrium.Library.Rounds
import Mathlib.Order.Fin.Basic

/-! # Segments of memory with a fault handler

`segments.lower_bound(addr)` in `get_segment` is the first segment that starts at `addr` or behind it, so
only the first byte of a segment is ever found in it. An attach looks up its first byte: it sees a segment
with the same start and no other one, and then returns with the mutex still locked. -/
namespace Bohrium
open Rounds
set_option autoImplicit false

/-- The codes of `bh_error.h`. -/
inductive BhError
  | success | error | typeNotSupported | outOfMemory | instNotSupported | extmethodNotSupported
  deriving DecidableEq, Repr

namespace MemSignal

/-- A `uint64_t` or a pointer. -/
abbrev Word := Fin (2 ^ 64)

/-- The memory that a caller attaches. A pointer one past its end exists. -/
structure Region where
  addr : Word
  size : Word
  bounded : addr.val + size.val < 2 ^ 64

structure Segment where
  idx : Word
  size : Word
  callback : Word
  deriving DecidableEq, Repr

/-- The global variables of the component. -/
structure State where
  segments : OrderedMap Word Segment
  locked : Bool
  bounded : ∀ e ∈ segments, e.1.val + e.2.size.val < 2 ^ 64

def State.init : State := ⟨OrderedMap.empty, false, fun _ he => absurd he OrderedMap.not_mem_empty⟩

def getSegment (segments : OrderedMap Word Segment) (addr : Word) : Option (Word × Segment) :=
  match segments.lowerBound addr with
  | none => none
  | some s =>
    let offset := addr - s.1
    if offset > s.2.size then none else some s

def attach (s : State) (idx : Word) (r : Region) (callback : Word) : Option (State × BhError) :=
  if s.locked then none
  else if (getSegment s.segments r.addr).isSome then some ({ s with locked := true }, .error)
  else some ({
    segments := s.segments.insert r.addr ⟨idx, r.size, callback⟩
    locked := false
    bounded := fun e he => by
      obtain rfl | ⟨he, _⟩ := OrderedMap.mem_insert.mp he
      · exact r.bounded
      · exact s.bounded e he }, .success)

def detach (s : State) (addr : Word) : Option (State × BhError) :=
  if s.locked then none
  else some ({
    segments := s.segments.erase addr
    locked := false
    bounded := fun e he => s.bounded e (OrderedMap.mem_erase.mp he).1 }, .success)

inductive Call
  | attach (idx : Word) (r : Region) (callback : Word)
  | detach (addr : Word)

def call (s : State) : Call → Option (State × BhError)
  | .attach idx r callback => attach s idx r callback
  | .detach addr => detach s addr

/-! ## What the component is for -/

/-- The byte at `p` is one of the segment's. -/
def Contains (e : Word × Segment) (p : Word) : Prop := e.1.val ≤ p.val ∧ p.val < e.1.val + e.2.size.val

def Disjoint (segments : OrderedMap Word Segment) : Prop :=
  ∀ e ∈ segments, ∀ f ∈ segments, e.1 ≠ f.1 → ∀ p, Contains e p → ¬ Contains f p

/-- The lookup of `p` gives the segment that contains it. -/
def Finds (segments : OrderedMap Word Segment) (p : Word) : Prop :=
  ∀ e, getSegment segments p = some e ↔ e ∈ segments ∧ Contains e p

/-- The segments are disjoint, and the lookup of `p` is right. -/
def Sound (p : Word) (s : State) : Prop := Disjoint s.segments ∧ Finds s.segments p

/-- A call that reports a conflict changes nothing. -/
def Harmless (s : State) (c : Call) : Prop := ∀ t, call s c = some (t, .error) → t = s

/-- Only the first byte of a segment is looked up. -/
def AtStarts (p : Word) (s : State) : Prop := ∀ e ∈ s.segments, (Contains e p ↔ e.1 = p)

/-- A new segment has a start of its own, and its bytes are in no other one. -/
def Fits (s : State) : Call → Prop
  | .attach idx r callback => ∀ e ∈ s.segments,
    e.1 ≠ r.addr ∧ ∀ p, Contains e p → ¬ Contains (r.addr, ⟨idx, r.size, callback⟩) p
  | .detach _ => True

/-! ## Lookups -/

variable {s : State} {c : Call} {p : Word} {e : Word × Segment}

theorem getSegment_eq_some (s : State) (p : Word) (e : Word × Segment) :
    getSegment s.segments p = some e ↔ e ∈ s.segments ∧ e.1 = p := by
  unfold getSegment
  constructor
  · intro h
    cases hlower : s.segments.lowerBound p with
    | none =>
      rw [hlower] at h
      cases h
    | some f =>
      rw [hlower] at h
      dsimp only at h
      split_ifs at h with hoffset
      obtain rfl := Option.some.inj h
      obtain ⟨hmem, hle⟩ := OrderedMap.of_lowerBound hlower
      refine ⟨hmem, ?_⟩
      -- behind `p`, the offset wraps around and is greater than any size
      by_contra hne
      apply hoffset
      have hbounded := s.bounded f hmem
      have hlt := Fin.lt_def.mp (lt_of_le_of_ne hle (Ne.symm hne))
      have hval : (p - f.1).val = 2 ^ 64 - f.1.val + p.val := by
        rw [Fin.sub_def]
        exact Nat.mod_eq_of_lt (by omega)
      rw [gt_iff_lt, Fin.lt_def, hval]
      omega
  · rintro ⟨hmem, rfl⟩
    rw [OrderedMap.lowerBound_of_mem hmem]
    dsimp only
    rw [Fin.sub_self, if_neg (Fin.not_lt_zero _)]

theorem getSegment_isSome (s : State) (p : Word) :
    (getSegment s.segments p).isSome = true ↔ ∃ e ∈ s.segments, e.1 = p := by
  rw [Option.isSome_iff_exists]
  simp only [getSegment_eq_some]

theorem finds_iff (s : State) (p : Word) : Finds s.segments p ↔ AtStarts p s := by
  unfold Finds AtStarts
  simp only [getSegment_eq_some]
  constructor
  · intro h e he
    have := h e
    tauto
  · intro h e
    have := h e
    tauto

/-! ## Calls -/

/-- The mutex is free and the segments are disjoint. -/
structure Orderly (s : State) : Prop where
  unlocked : s.locked = false
  disjoint : Disjoint s.segments

theorem orderly_init : Orderly State.init :=
  ⟨rfl, fun _ he => absurd he OrderedMap.not_mem_empty⟩

theorem call_cases {t : State} {r : BhError} (hs : s.locked = false) (h : call s c = some (t, r)) :
    (∃ idx reg callback, c = .attach idx reg callback ∧ (∃ e ∈ s.segments, e.1 = reg.addr) ∧ r = .error ∧
      t = { s with locked := true }) ∨
    (∃ idx reg callback, c = .attach idx reg callback ∧ (∀ e ∈ s.segments, e.1 ≠ reg.addr) ∧ r = .success ∧
      t.locked = false ∧ t.segments = s.segments.insert reg.addr ⟨idx, reg.size, callback⟩) ∨
    ∃ addr, c = .detach addr ∧ r = .success ∧ t.locked = false ∧ t.segments = s.segments.erase addr := by
  cases c with
  | attach idx reg callback =>
    simp only [call, attach, hs, Bool.false_eq_true, if_false, getSegment_isSome] at h
    split_ifs at h with hfound
    · obtain ⟨rfl, rfl⟩ := Prod.mk.inj (Option.some.inj h)
      exact Or.inl ⟨idx, reg, callback, rfl, hfound, rfl, rfl⟩
    · obtain ⟨rfl, rfl⟩ := Prod.mk.inj (Option.some.inj h)
      exact Or.inr (Or.inl ⟨idx, reg, callback, rfl, fun e he heq => hfound ⟨e, he, heq⟩, rfl, rfl, rfl⟩)
  | detach addr =>
    simp only [call, detach, hs, Bool.false_eq_true, if_false] at h
    obtain ⟨rfl, rfl⟩ := Prod.mk.inj (Option.some.inj h)
    exact Or.inr (Or.inr ⟨addr, rfl, rfl, rfl, rfl⟩)

/-- The segments after an attach are disjoint exactly if the new one meets no other. -/
theorem disjoint_insert (h : Disjoint s.segments) {reg : Region} {v : Segment} (hstart : ∀ e ∈ s.segments, e.1 ≠ reg.addr) :
    Disjoint (s.segments.insert reg.addr v) ↔ ∀ e ∈ s.segments, ∀ p, Contains e p → ¬ Contains (reg.addr, v) p := by
  constructor
  · intro hd e he
    exact hd e (OrderedMap.mem_insert.mpr (Or.inr ⟨he, hstart e he⟩)) _ (OrderedMap.mem_insert.mpr (Or.inl rfl)) (hstart e he)
  · intro hnew e he f hf hne p hep hfp
    obtain rfl | ⟨he, _⟩ := OrderedMap.mem_insert.mp he
    · obtain rfl | ⟨hf, _⟩ := OrderedMap.mem_insert.mp hf
      · exact hne rfl
      · exact hnew f hf p hfp hep
    · obtain rfl | ⟨hf, _⟩ := OrderedMap.mem_insert.mp hf
      · exact hnew e he p hep hfp
      · exact h e he f hf hne p hep hfp

/-- The state that a call leaves. -/
def next (s : State) (c : Call) : Option State := (call s c).map Prod.fst

theorem next_eq_some {t : State} (h : next s c = some t) : ∃ r, call s c = some (t, r) := by
  obtain ⟨⟨t', r⟩, hcall, rfl⟩ := Option.map_eq_some_iff.mp h
  exact ⟨r, hcall⟩

theorem Orderly.of_fits (hs : Orderly s) (hc : Fits s c) :
    Harmless s c ∧ ∀ t, next s c = some t → Orderly t := by
  constructor
  · intro t hcall
    rcases call_cases hs.unlocked hcall with
      ⟨idx, reg, callback, rfl, ⟨e, he, heq⟩, _⟩ | ⟨_, _, _, _, _, hr, _⟩ | ⟨_, _, hr, _⟩
    · exact absurd heq (hc e he).1
    · cases hr
    · cases hr
  · intro t hnext
    obtain ⟨r, hcall⟩ := next_eq_some hnext
    rcases call_cases hs.unlocked hcall with
      ⟨idx, reg, callback, rfl, ⟨e, he, heq⟩, _⟩ | ⟨idx, reg, callback, rfl, hstart, _, hunlocked, hsegments⟩ |
      ⟨addr, _, _, hunlocked, hsegments⟩
    · exact absurd heq (hc e he).1
    · refine ⟨hunlocked, ?_⟩
      rw [hsegments, disjoint_insert hs.disjoint hstart]
      intro e he
      exact (hc e he).2
    · refine ⟨hunlocked, ?_⟩
      rw [hsegments]
      intro e he f hf
      exact hs.disjoint e (OrderedMap.mem_erase.mp he).1 f (OrderedMap.mem_erase.mp hf).1

theorem Orderly.fits (hs : Orderly s) (hc : Harmless s c) (hnext : ∀ t, next s c = some t → Disjoint t.segments) :
    Fits s c := by
  cases c with
  | detach addr => exact trivial
  | attach idx reg callback =>
    have hstart : ∀ e ∈ s.segments, e.1 ≠ reg.addr := by
      intro e he heq
      have hcall : call s (.attach idx reg callback) = some ({ s with locked := true }, .error) := by
        simp only [call, attach, hs.unlocked, Bool.false_eq_true, if_false]
        rw [if_pos ((getSegment_isSome s reg.addr).mpr ⟨e, he, heq⟩)]
      have hlocked := congrArg State.locked (hc _ hcall)
      rw [hs.unlocked] at hlocked
      cases hlocked
    have hfree : ¬ (getSegment s.segments reg.addr).isSome = true := by
      rw [getSegment_isSome]
      rintro ⟨e, he, heq⟩
      exact hstart e he heq
    obtain ⟨t, ht, hsegments⟩ : ∃ t, next s (.attach idx reg callback) = some t ∧
        t.segments = s.segments.insert reg.addr ⟨idx, reg.size, callback⟩ := by
      simp only [next, call, attach, hs.unlocked, hfree, Bool.false_eq_true, if_false]
      exact ⟨_, rfl, rfl⟩
    have hdisjoint := hnext t ht
    rw [hsegments] at hdisjoint
    intro e he
    exact ⟨hstart e he, (disjoint_insert hs.disjoint hstart).mp hdisjoint e he⟩

/-! ## Runs -/

/-- The segments stay disjoint, the lookup of `p` stays right and conflicts stay harmless exactly as long
as every attached segment fits and `p` is no later byte of an attached segment. -/
theorem sound_throughout_iff (p : Word) (calls : List Call) :
    Throughout next (Sound p) Harmless State.init calls ↔ Throughout next (AtStarts p) Fits State.init calls := by
  refine throughout_iff (I := Orderly) ?_ ?_ ?_ orderly_init
  · intro s hs
    unfold Sound
    rw [finds_iff]
    exact and_iff_right hs.disjoint
  · intro s c hs hc
    exact hs.of_fits hc
  · intro s c hs hc hnext
    exact hs.fits hc fun t ht => (hnext t ht).1

/-- A page at address 4096 and an address in the middle of it. -/
theorem not_sound_middle :
    ¬ Throughout next (Sound 6000) Harmless State.init [.attach 1 ⟨4096, 4096, by decide⟩ 2] := by
  rintro ⟨_, _, hrest⟩
  have hfinds := (finds_iff _ _).mp (hrest _ rfl).start.2
  have h := hfinds (4096, ⟨1, 4096, 2⟩) (OrderedMap.mem_insert.mpr (Or.inl rfl))
  exact absurd (h.mp (by unfold Contains; decide)) (by decide)

end MemSignal
end Bohrium
