import Bohrium.Library.CInt
import Mathlib.Data.List.Basic
import Mathlib.Data.List.GetD
import Mathlib.Algebra.BigOperators.Group.List.Basic

/-! # Arrays in files

`Utility.ReadArray` and `Utility.ToFile`. An array is given by its bytes. A stream answers every `Read` with
some of the bytes it still has. The loops look at the last answer only, so that the bytes behind its last
whole element are lost. -/
namespace Bohrium.NumCil.File
open CInt
set_option autoImplicit false

/-! ## Writing -/

/-- `new byte[1024 * 8 * elsize]`, `none` where the length is negative. -/
def newBuffer (elsize : ℕ) : Option ℕ :=
  if 0 ≤ toInt32 (8192 * elsize) then some (toInt32 (8192 * elsize)).toNat else none

section
variable {β : Type}

/-- `n` bytes of memory. -/
def copy (mem : ℤ → β) (pos : ℤ) (n : ℕ) : List β := (List.range n).map fun i : ℕ => mem (pos + i)

/-- The loop of `ToFile`; `none` if it does not end. -/
def writeLoop (mem : ℤ → β) (buffer elsize : ℕ) (curpos : ℤ) (elementstowrite : ℕ) : Option (List β) :=
  if elementstowrite = 0 then some []
  else if min elementstowrite (buffer / elsize) = 0 then none
  else
    let curels := min elementstowrite (buffer / elsize)
    (writeLoop mem buffer elsize (curpos + (curels * elsize : ℕ)) (elementstowrite - curels)).map
      (copy mem curpos (curels * elsize) ++ ·)
termination_by elementstowrite
decreasing_by exact Nat.sub_lt (Nat.pos_of_ne_zero ‹_›) (Nat.pos_of_ne_zero ‹_›)

/-- `ToFile` on an array of `length` elements at address 0; `none` if it throws or does not return. -/
def toFile (mem : ℤ → β) (elsize length elements offset : ℕ) : Option (List β) :=
  if length < elements + offset then none
  else (newBuffer elsize).bind fun buffer =>
    writeLoop mem buffer elsize (toInt32 ((offset * elsize : ℕ) : ℤ)) elements

/-! ## Reading -/

/-- The variables of the loops of `ReadArray`. -/
structure Reading (β : Type) where
  elbuf : ℕ → β
  bytesread : ℕ := 0
  elementsread : ℕ := 0
  offset : ℕ := 0
  /-- The bytes of the elements copied so far. -/
  result : List β := []

/-- The elements taken from an answer of `a` bytes; the result has space for `room` in all. -/
def taken (elsize : ℕ) (room : Option ℕ) (elementsread a : ℕ) : ℕ :=
  room.elim (a / elsize) fun room => min (a / elsize) (room - elementsread)

/-- One round of a loop, in which `a` bytes were read. -/
def round (get : ℕ → β) (elsize : ℕ) (room : Option ℕ) (a : ℕ) (s : Reading β) : Reading β :=
  let elbuf := fun x => if s.offset ≤ x ∧ x < s.offset + a then get (s.bytesread + (x - s.offset)) else s.elbuf x
  let p := taken elsize room s.elementsread a
  { elbuf := elbuf
    bytesread := s.bytesread + a
    elementsread := s.elementsread + p
    offset := a % elsize
    result := s.result ++ (List.range (p * elsize)).map elbuf }

/-- A loop over the answers of the stream. -/
def readLoop (get : ℕ → β) (elsize : ℕ) (room elements : Option ℕ) : List ℕ → Reading β → Reading β
  | [], s => s
  | a :: as, s =>
    let s := round get elsize room a s
    if elements = some s.elementsread then { s with offset := 0 } else readLoop get elsize room elements as s

/-- `ReadArray` on a stream of unknown length. `elements` is `none` for a negative one. -/
def readUnknown (zero : β) (get : ℕ → β) (elsize : ℕ) (elements : Option ℕ) (as : List ℕ) : Option (List β) :=
  (newBuffer elsize).bind fun _ =>
    let s := readLoop get elsize elements elements as { elbuf := fun _ => zero }
    if s.offset ≠ 0 then none
    else if elements.any (· ≠ s.elementsread) then none
    else some s.result

/-- `ReadArray` on a stream of `streamlen` bytes. What is not copied stays zero. -/
def readKnown (zero : β) (get : ℕ → β) (elsize streamlen : ℕ) (elements : Option ℕ) (as : List ℕ) : Option (List β) :=
  (newBuffer elsize).bind fun _ =>
    if streamlen % elsize ≠ 0 then none
    else
      let length := elements.elim (streamlen / elsize) fun n => min n (streamlen / elsize)
      let s := readLoop get elsize (some length) elements as { elbuf := fun _ => zero }
      if s.offset ≠ 0 ∨ (streamlen ≠ s.bytesread ∧ elements ≠ none) then none
      else if elements.any (· ≠ length) then none
      else some (s.result ++ List.replicate (length * elsize - s.result.length) zero)

/-- `ReadArray`; `known` says whether the stream has a `Length`. -/
def readArray (known : Bool) (zero : β) (get : ℕ → β) (elsize streamlen : ℕ) (elements : Option ℕ) (as : List ℕ) :
    Option (List β) :=
  if known then readKnown zero get elsize streamlen elements as else readUnknown zero get elsize elements as

end

/-- The answers that a stream of `streamlen` bytes may give: at least one byte, no more than there is room for.
It ends where the stream does, or when there is no room. -/
def Answers (buffer elsize : ℕ) : ℕ → ℕ → List ℕ → Prop
  | streamlen, offset, [] => streamlen = 0 ∨ buffer ≤ offset
  | streamlen, offset, a :: as =>
    1 ≤ a ∧ a ≤ buffer - offset ∧ a ≤ streamlen ∧ Answers buffer elsize (streamlen - a) (a % elsize) as

/-! ## What the writer leaves -/

section
variable {β : Type}

theorem copy_append (mem : ℤ → β) (pos : ℤ) (m n : ℕ) :
    copy mem pos m ++ copy mem (pos + m) n = copy mem pos (m + n) := by
  simp only [copy, List.range_add, List.map_append, List.map_map]
  congr 1
  apply List.map_congr_left
  intro i _
  simp only [Function.comp_apply, Nat.cast_add, add_assoc]

theorem length_copy (mem : ℤ → β) (pos : ℤ) (n : ℕ) : (copy mem pos n).length = n := by simp [copy]

theorem writeLoop_eq (mem : ℤ → β) {buffer elsize : ℕ} (h : elsize ≤ buffer) (he : 1 ≤ elsize) (pos : ℤ) (n : ℕ) :
    writeLoop mem buffer elsize pos n = some (copy mem pos (n * elsize)) := by
  have hmany : 0 < buffer / elsize := Nat.div_pos h he
  induction n using Nat.strong_induction_on generalizing pos with
  | h n ih =>
    rw [writeLoop]
    by_cases hn : n = 0
    · simp [hn, copy]
    rw [if_neg hn, if_neg (by omega)]
    dsimp only
    rw [ih _ (by omega), Option.map_some, copy_append, ← Nat.add_mul]
    congr 3
    omega

/-- A buffer too small for an element: the writer does not come to an end. -/
theorem writeLoop_stuck (mem : ℤ → β) {buffer elsize : ℕ} (h : buffer < elsize) (pos : ℤ) {n : ℕ} (hn : n ≠ 0) :
    writeLoop mem buffer elsize pos n = none := by
  rw [writeLoop, if_neg hn, if_pos]
  rw [Nat.div_eq_of_lt h, Nat.min_zero]

theorem toFile_eq_some {mem : ℤ → β} {elsize length elements offset : ℕ} (he : 1 ≤ elsize)
    (hin : elements + offset ≤ length) {buffer : ℕ} (hbuffer : newBuffer elsize = some buffer)
    (hfits : elements = 0 ∨ elsize ≤ buffer) :
    toFile mem elsize length elements offset =
      some (copy mem (toInt32 ((offset * elsize : ℕ) : ℤ)) (elements * elsize)) := by
  rw [toFile, if_neg (by omega), hbuffer, Option.bind_some]
  obtain rfl | hfits := hfits
  · rw [writeLoop]
    simp [copy]
  · exact writeLoop_eq mem hfits he _ _

theorem toFile_eq_none {mem : ℤ → β} {elsize length elements offset : ℕ}
    (h : ¬∃ buffer, newBuffer elsize = some buffer ∧ (elements = 0 ∨ elsize ≤ buffer)) :
    toFile mem elsize length elements offset = none := by
  unfold toFile
  split
  · rfl
  cases hbuffer : newBuffer elsize with
  | none => rfl
  | some buffer =>
    have hsmall : ¬(elements = 0 ∨ elsize ≤ buffer) := fun hfits => h ⟨buffer, hbuffer, hfits⟩
    rw [Option.bind_some]
    exact writeLoop_stuck mem (by omega) _ (by omega)

end

/-! ## Reading does not look at the bytes -/

section
variable {β γ : Type} (f : β → γ)

def Reading.map (s : Reading β) : Reading γ :=
  { elbuf := fun x => f (s.elbuf x)
    bytesread := s.bytesread
    elementsread := s.elementsread
    offset := s.offset
    result := s.result.map f }

theorem round_map (get : ℕ → β) (elsize : ℕ) (room : Option ℕ) (a : ℕ) (s : Reading β) :
    round (fun i => f (get i)) elsize room a (s.map f) = (round get elsize room a s).map f := by
  simp only [round, Reading.map, List.map_append, List.map_map, Function.comp_def, apply_ite f, Reading.mk.injEq]
  trivial

theorem readLoop_map (get : ℕ → β) (elsize : ℕ) (room elements : Option ℕ) (as : List ℕ) (s : Reading β) :
    readLoop (fun i => f (get i)) elsize room elements as (s.map f) =
      (readLoop get elsize room elements as s).map f := by
  induction as generalizing s with
  | nil => rfl
  | cons a as ih =>
    simp only [readLoop, round_map, ih]
    change (if elements = some (round get elsize room a s).elementsread then _ else _) = _
    split <;> rfl

theorem readArray_map (known : Bool) (zero : β) (get : ℕ → β) (elsize streamlen : ℕ) (elements : Option ℕ)
    (as : List ℕ) :
    readArray known (f zero) (fun i => f (get i)) elsize streamlen elements as =
      (readArray known zero get elsize streamlen elements as).map (List.map f) := by
  have hloop : ∀ room, readLoop (fun i => f (get i)) elsize room elements as { elbuf := fun _ => f zero } =
      (readLoop get elsize room elements as { elbuf := fun _ => zero }).map f :=
    fun room => readLoop_map f get elsize room elements as { elbuf := fun _ => zero }
  cases hbuffer : newBuffer elsize with
  | none => cases known <;> simp [readArray, readKnown, readUnknown, hbuffer]
  | some buffer =>
    cases known with
    | false =>
      simp only [readArray, readUnknown, hbuffer, hloop, Option.bind_some, Bool.false_eq_true, if_false]
      simp only [Reading.map]
      rw [apply_ite (Option.map _), apply_ite (Option.map _)]
      rfl
    | true =>
      simp only [readArray, readKnown, hbuffer, hloop, Option.bind_some, if_true]
      simp only [Reading.map, List.length_map]
      rw [apply_ite (Option.map _), apply_ite (Option.map _), apply_ite (Option.map _), Option.map_some,
        List.map_append, List.map_replicate]
      rfl

end

/-! ## Where the loops stand

Now the stream consists of its own positions, and so does what has been copied while all goes well. -/

section
variable {elsize : ℕ} {s : Reading (Option ℕ)}

def positions (n : ℕ) : List (Option ℕ) := (List.range n).map some

theorem positions_add (m n : ℕ) : positions (m + n) = positions m ++ (List.range n).map fun x => some (m + x) := by
  simp only [positions, List.range_add, List.map_append, List.map_map, Function.comp_def]

theorem length_positions (n : ℕ) : (positions n).length = n := by simp [positions]

/-- The last answer ended with an element. -/
structure Aligned (elsize : ℕ) (s : Reading (Option ℕ)) : Prop where
  offset : s.offset = 0
  bytesread : s.bytesread = s.elementsread * elsize
  result : s.result = positions (s.elementsread * elsize)

/-- The last answer was a piece of an element, at an element's begin. -/
structure Pending (elsize : ℕ) (s : Reading (Option ℕ)) : Prop where
  offset_pos : 0 < s.offset
  bytesread : s.bytesread = s.elementsread * elsize + s.offset
  elbuf : ∀ x < s.offset, s.elbuf x = some (s.elementsread * elsize + x)
  result : s.result = positions (s.elementsread * elsize)

/-- A byte was copied to the place of another one. -/
def Spoilt (s : Reading (Option ℕ)) : Prop := ∃ (i : ℕ) (x : Option ℕ), s.result[i]? = some x ∧ x ≠ some i

/-- The next element cannot come out right: bytes are lost, or the buffer begins with old ones. -/
structure Doomed (elsize : ℕ) (s : Reading (Option ℕ)) : Prop where
  offset : s.offset < elsize
  length : s.result.length = s.elementsread * elsize
  wrong : s.elementsread * elsize + s.offset < s.bytesread ∨
    0 < s.offset ∧ s.elementsread * elsize + s.offset = s.bytesread ∧ s.elbuf 0 ≠ some (s.elementsread * elsize)

theorem Spoilt.ne_positions (h : Spoilt s) (n : ℕ) : s.result ≠ positions n := by
  obtain ⟨i, x, hx, hne⟩ := h
  intro hresult
  rw [hresult, positions, List.getElem?_map] at hx
  obtain ⟨j, hj, rfl⟩ := Option.map_eq_some_iff.mp hx
  rw [List.getElem?_eq_some_iff] at hj
  obtain ⟨hlt, hj⟩ := hj
  apply hne
  rw [← hj, List.getElem_range]

variable {room elements : Option ℕ} {a : ℕ}

theorem Spoilt.round (h : Spoilt s) : Spoilt (round some elsize room a s) := by
  obtain ⟨i, x, hx, hne⟩ := h
  refine ⟨i, x, ?_, hne⟩
  obtain ⟨hlt, -⟩ := List.getElem?_eq_some_iff.mp hx
  simp only [File.round]
  rwa [List.getElem?_append_left hlt]

theorem Spoilt.readLoop (h : Spoilt s) (as : List ℕ) : Spoilt (readLoop some elsize room elements as s) := by
  induction as generalizing s with
  | nil => exact h
  | cons a as ih =>
    simp only [File.readLoop]
    split
    · show Spoilt (File.round some elsize room a s)
      exact h.round
    · exact ih h.round

theorem taken_of_lt {e : ℕ} (h : a < elsize) : taken elsize room e a = 0 := by
  have hzero : a / elsize = 0 := Nat.div_eq_of_lt h
  cases room <;> simp [taken, hzero]

theorem taken_pos {e : ℕ} (he : 1 ≤ elsize) (h : elsize ≤ a) (hroom : ∀ w ∈ room, e < w) :
    0 < taken elsize room e a := by
  have hpos : 0 < a / elsize := Nat.div_pos h he
  cases room with
  | none => exact hpos
  | some w =>
    have := hroom w rfl
    simp only [taken, Option.elim_some]
    omega

/-- The first byte of the next element, wrong in the buffer, is wrong in the result. -/
theorem spoilt_of_elbuf {x : ℕ} (hlength : s.result.length = s.elementsread * elsize) (hx : x < elsize)
    (htaken : 0 < taken elsize room s.elementsread a)
    (hwrong : (round some elsize room a s).elbuf x ≠ some (s.elementsread * elsize + x)) :
    Spoilt (round some elsize room a s) := by
  refine ⟨s.elementsread * elsize + x, _, ?_, hwrong⟩
  have hin : x < taken elsize room s.elementsread a * elsize := hx.trans_le (Nat.le_mul_of_pos_left _ htaken)
  simp only [round]
  rw [List.getElem?_append_right (by omega), hlength, Nat.add_sub_cancel_left, List.getElem?_map,
    List.getElem?_range hin]
  rfl

theorem Doomed.round (he : 1 ≤ elsize) (h : Doomed elsize s) (ha : 1 ≤ a) (hroom : ∀ w ∈ room, s.elementsread < w) :
    Spoilt (round some elsize room a s) ∨
      (File.round some elsize room a s).elementsread = s.elementsread ∧
        Doomed elsize (File.round some elsize room a s) := by
  obtain hsmall | hlarge := Nat.lt_or_ge a elsize
  · right
    have htaken : taken elsize room s.elementsread a = 0 := taken_of_lt hsmall
    refine ⟨by simp [File.round, htaken], ?_, ?_, Or.inl ?_⟩
    · exact Nat.mod_lt _ he
    · simp [File.round, htaken, h.length]
    · simp only [File.round, htaken, Nat.mod_eq_of_lt hsmall, Nat.add_zero]
      have := h.wrong
      omega
  · left
    have htaken : 0 < taken elsize room s.elementsread a := taken_pos he hlarge hroom
    obtain hlost | ⟨hoffset, -, hstale⟩ := h.wrong
    · apply spoilt_of_elbuf h.length h.offset htaken
      simp only [File.round]
      rw [if_pos (by omega)]
      intro heq
      have := Option.some.inj heq
      omega
    · apply spoilt_of_elbuf h.length he htaken
      simp only [File.round]
      rw [if_neg (by omega)]
      exact hstale

/-- What is missing never comes. -/
theorem Doomed.readLoop (he : 1 ≤ elsize) (h : Doomed elsize s) {as : List ℕ} (has : ∀ a ∈ as, 1 ≤ a)
    (hroom : ∀ w ∈ room, s.elementsread < w) (helements : elements ≠ some s.elementsread) :
    Spoilt (readLoop some elsize room elements as s) ∨
      (File.readLoop some elsize room elements as s).elementsread = s.elementsread ∧
        Doomed elsize (File.readLoop some elsize room elements as s) := by
  induction as generalizing s with
  | nil => exact Or.inr ⟨rfl, h⟩
  | cons a as ih =>
    simp only [File.readLoop]
    obtain hspoilt | ⟨hsame, hdoomed⟩ := h.round he (has a List.mem_cons_self) hroom
    · left
      split
      · show Spoilt (File.round some elsize room a s)
        exact hspoilt
      · exact hspoilt.readLoop as
    · rw [hsame, if_neg helements]
      have hrest := ih hdoomed (fun b hb => has b (List.mem_cons_of_mem a hb)) (by rwa [hsame]) (by rwa [hsame])
      rwa [hsame] at hrest

/-- `w` elements were read, and no byte is left over. -/
def Right (elsize w : ℕ) (s : Reading (Option ℕ)) : Prop := s.offset = 0 ∧ s.result = positions (w * elsize)

theorem Doomed.not_right (he : 1 ≤ elsize) (h : Doomed elsize s) {w : ℕ} (hw : s.elementsread < w) {as : List ℕ}
    (has : ∀ a ∈ as, 1 ≤ a) (hroom : ∀ v ∈ room, v = w) (helements : ∀ v ∈ elements, v = w) :
    ¬Right elsize w (File.readLoop some elsize room elements as s) := by
  rintro ⟨-, hresult⟩
  have hne : elements ≠ some s.elementsread := fun heq => by
    have := helements _ heq
    omega
  obtain hspoilt | ⟨hsame, hdoomed⟩ := h.readLoop he has (fun v hv => hroom v hv ▸ hw) hne
  · exact hspoilt.ne_positions _ hresult
  · have hlength := hdoomed.length
    rw [hsame, hresult, length_positions] at hlength
    have := Nat.eq_of_mul_eq_mul_right he hlength
    omega

/-! ## A round that starts with an element -/

theorem taken_mul_le (e : ℕ) : taken elsize room e a * elsize ≤ a := by
  have hle : taken elsize room e a ≤ a / elsize := by
    cases room with
    | none => exact le_rfl
    | some w => exact Nat.min_le_left _ _
  exact (Nat.mul_le_mul_right _ hle).trans (Nat.div_mul_le_self a elsize)

theorem result_round (hresult : s.result = positions (s.elementsread * elsize))
    (helbuf : ∀ x < a, (round some elsize room a s).elbuf x = some (s.elementsread * elsize + x)) :
    (round some elsize room a s).result = positions ((round some elsize room a s).elementsread * elsize) := by
  show s.result ++ (List.range _).map (round some elsize room a s).elbuf = positions ((s.elementsread + _) * elsize)
  rw [Nat.add_mul, positions_add, hresult]
  congr 1
  apply List.map_congr_left
  intro x hx
  exact helbuf x ((List.mem_range.mp hx).trans_le (taken_mul_le _))

theorem Aligned.elbuf_round (h : Aligned elsize s) {x : ℕ} (hx : x < a) :
    (File.round some elsize room a s).elbuf x = some (s.elementsread * elsize + x) := by
  simp only [File.round, h.offset, h.bytesread]
  rw [if_pos (by omega), Nat.sub_zero]

theorem Aligned.result_round (h : Aligned elsize s) :
    (File.round some elsize room a s).result = positions ((File.round some elsize room a s).elementsread * elsize) :=
  File.result_round h.result fun _ hx => h.elbuf_round hx

theorem Pending.elbuf_round (h : Pending elsize s) {x : ℕ} (hx : x < a) :
    (File.round some elsize room a s).elbuf x = some (s.elementsread * elsize + x) := by
  simp only [File.round]
  split
  · congr 1
    have := h.bytesread
    omega
  · exact h.elbuf x (by omega)

theorem Pending.result_round (h : Pending elsize s) :
    (File.round some elsize room a s).result = positions ((File.round some elsize room a s).elementsread * elsize) :=
  File.result_round h.result fun _ hx => h.elbuf_round hx

theorem Aligned.round (h : Aligned elsize s) (ha : a % elsize = 0)
    (htaken : taken elsize room s.elementsread a = a / elsize) : Aligned elsize (File.round some elsize room a s) where
  offset := ha
  bytesread := by
    simp only [File.round, htaken, h.bytesread, Nat.add_mul]
    rw [Nat.div_mul_cancel (Nat.dvd_of_mod_eq_zero ha)]
  result := h.result_round

theorem Aligned.pending (h : Aligned elsize s) (ha : 1 ≤ a) (hsmall : a < elsize) :
    Pending elsize (File.round some elsize room a s) where
  offset_pos := by
    simp only [File.round, Nat.mod_eq_of_lt hsmall]
    omega
  bytesread := by simp only [File.round, Nat.mod_eq_of_lt hsmall, taken_of_lt hsmall, h.bytesread, Nat.add_zero]
  elbuf x hx := by
    simp only [File.round, Nat.mod_eq_of_lt hsmall] at hx
    rw [h.elbuf_round hx]
    simp only [File.round, taken_of_lt hsmall, Nat.add_zero]
  result := h.result_round

theorem Aligned.doomed (h : Aligned elsize s) (he : 1 ≤ elsize) (hlarge : elsize ≤ a) (ha : a % elsize ≠ 0)
    (htaken : taken elsize room s.elementsread a = a / elsize) : Doomed elsize (File.round some elsize room a s) where
  offset := Nat.mod_lt a he
  length := by rw [h.result_round, length_positions]
  wrong := by
    have hdiv : 0 < a / elsize * elsize := Nat.mul_pos (Nat.div_pos hlarge he) he
    refine Or.inr ⟨Nat.pos_of_ne_zero ha, ?_, ?_⟩
    · simp only [File.round, htaken, h.bytesread, Nat.add_mul, Nat.add_assoc, Nat.div_add_mod']
    · rw [h.elbuf_round (by omega)]
      simp only [File.round, htaken, Nat.add_mul]
      intro heq
      have := Option.some.inj heq
      omega

theorem Pending.doomed (h : Pending elsize s) (he : 1 ≤ elsize)
    (htaken : taken elsize room s.elementsread a = a / elsize) : Doomed elsize (File.round some elsize room a s) where
  offset := Nat.mod_lt a he
  length := by rw [h.result_round, length_positions]
  wrong := by
    left
    have := h.offset_pos
    have := Nat.div_add_mod' a elsize
    simp only [File.round, htaken, h.bytesread, Nat.add_mul]
    omega

/-! ## Where the loops succeed -/

/-- The answers left over when `n` more elements came out right. An element may come in two pieces if it is
the first of the last answer that is looked at. -/
def leftOver (elsize : ℕ) : ℕ → List ℕ → Option (List ℕ)
  | n, [] => if n = 0 then some [] else none
  | n, a :: as =>
    if n ≤ a / elsize then some as
    else if a % elsize = 0 then leftOver elsize (n - a / elsize) as
    else if a < elsize then as.head?.bind fun c => if n ≤ c / elsize then some as.tail else none
    else none

theorem taken_limit {e w : ℕ} (h : ¬w - e ≤ a / elsize) : taken elsize (some w) e a = a / elsize := by
  simp only [taken, Option.elim_some]
  omega

theorem round_done {e w : ℕ} (hs : s.elementsread = e) (hle : e ≤ w) (h : w - e ≤ a / elsize) :
    (round some elsize (some w) a s).elementsread = w := by
  simp only [round, taken, Option.elim_some, hs]
  omega

theorem Aligned.readLoop_limit (he : 1 ≤ elsize) {w : ℕ} {as : List ℕ} (has : ∀ a ∈ as, 1 ≤ a) (h : Aligned elsize s)
    (hle : s.elementsread ≤ w) :
    (∃ rest, leftOver elsize (w - s.elementsread) as = some rest ∧
      Right elsize w (readLoop some elsize (some w) (some w) as s) ∧
      (readLoop some elsize (some w) (some w) as s).bytesread + rest.sum = s.bytesread + as.sum) ∨
    leftOver elsize (w - s.elementsread) as = none ∧
      ¬Right elsize w (readLoop some elsize (some w) (some w) as s) := by
  induction as generalizing s with
  | nil =>
    by_cases hw : s.elementsread = w
    · left
      exact ⟨[], by simp [leftOver, hw], ⟨h.offset, hw ▸ h.result⟩, rfl⟩
    · right
      refine ⟨by rw [leftOver, if_neg (by omega)], fun hright => hw ?_⟩
      have hlength := congrArg List.length (h.result.symm.trans hright.2)
      rw [length_positions, length_positions] at hlength
      exact Nat.eq_of_mul_eq_mul_right he hlength
  | cons a as ih =>
    have hrest : ∀ b ∈ as, 1 ≤ b := fun b hb => has b (List.mem_cons_of_mem a hb)
    simp only [File.readLoop, leftOver]
    by_cases hdone : w - s.elementsread ≤ a / elsize
    · left
      have hw : (File.round some elsize (some w) a s).elementsread = w := round_done rfl hle hdone
      rw [if_pos hdone, hw, if_pos rfl]
      refine ⟨as, rfl, ⟨rfl, ?_⟩, ?_⟩
      · have hresult : (File.round some elsize (some w) a s).result = positions (_ * elsize) := h.result_round
        rwa [hw] at hresult
      · simp only [File.round, List.sum_cons]
        omega
    have htaken := taken_limit hdone
    have hcount : (File.round some elsize (some w) a s).elementsread = s.elementsread + a / elsize := by
      simp only [File.round, htaken]
    have hmore : ¬some w = some (File.round some elsize (some w) a s).elementsread := by
      rw [hcount, Option.some.injEq]
      omega
    rw [if_neg hdone, if_neg hmore]
    by_cases hdvd : a % elsize = 0
    · rw [if_pos hdvd]
      have hnext := ih hrest (h.round hdvd htaken) (by rw [hcount]; omega)
      rw [hcount, ← Nat.sub_sub] at hnext
      obtain ⟨rest, hleft, hright, hsum⟩ | hfail := hnext
      · left
        refine ⟨rest, hleft, hright, ?_⟩
        rw [hsum, List.sum_cons]
        exact Nat.add_assoc _ _ _
      · exact Or.inr hfail
    rw [if_neg hdvd]
    obtain hsmall | hlarge := Nat.lt_or_ge a elsize
    · -- the first bytes of an element: the next answer is the last one that may help
      rw [if_pos hsmall]
      have hpending : Pending elsize (File.round some elsize (some w) a s) := h.pending (has a List.mem_cons_self) hsmall
      rw [Nat.div_eq_of_lt hsmall, Nat.add_zero] at hcount
      cases as with
      | nil =>
        right
        refine ⟨rfl, fun hright => ?_⟩
        exact hpending.offset_pos.ne' hright.1
      | cons c as =>
        simp only [File.readLoop, List.head?_cons, Option.bind_some, List.tail_cons]
        by_cases hlast : w - s.elementsread ≤ c / elsize
        · left
          have hw := round_done hcount hle hlast
          rw [if_pos hlast, hw, if_pos rfl]
          refine ⟨as, rfl, ⟨rfl, ?_⟩, ?_⟩
          · have hresult : (File.round some elsize (some w) c _).result = positions (_ * elsize) := hpending.result_round
            rwa [hw] at hresult
          · simp only [File.round, List.sum_cons]
            omega
        · right
          rw [if_neg hlast]
          refine ⟨rfl, ?_⟩
          rw [← hcount] at hlast
          have htaken' := taken_limit hlast
          have hdoomed := hpending.doomed he htaken'
          have hcount' : (File.round some elsize (some w) c (File.round some elsize (some w) a s)).elementsread =
              s.elementsread + c / elsize := by
            rw [← hcount, ← htaken']
            rfl
          rw [if_neg (by rw [hcount', Option.some.injEq]; omega)]
          apply hdoomed.not_right he (by omega) fun b hb => hrest b (List.mem_cons_of_mem c hb)
          · simp
          · simp
    · right
      rw [if_neg (by omega)]
      refine ⟨rfl, ?_⟩
      apply (h.doomed he hlarge hdvd htaken).not_right he (by omega) hrest
      · simp
      · simp

theorem taken_all {e w : ℕ} (he : 1 ≤ elsize) (hroom : ∀ v ∈ room, v = w) (h : e * elsize + a ≤ w * elsize) :
    taken elsize room e a = a / elsize := by
  cases room with
  | none => rfl
  | some v =>
    obtain rfl := hroom v rfl
    have hfits : e + a / elsize ≤ v := by
      apply Nat.le_of_mul_le_mul_right _ he
      rw [Nat.add_mul]
      have := Nat.div_mul_le_self a elsize
      omega
    simp only [taken, Option.elim_some]
    omega

/-- Without a limit the loops read the `w` elements of the stream. -/
theorem Aligned.readLoop_all (he : 1 ≤ elsize) {w : ℕ} (hroom : ∀ v ∈ room, v = w) {as : List ℕ}
    (has : ∀ a ∈ as, 1 ≤ a) (h : Aligned elsize s) (hsum : s.bytesread + as.sum = w * elsize) :
    Right elsize w (readLoop some elsize room none as s) ↔ ∀ a ∈ as, a % elsize = 0 := by
  induction as generalizing s with
  | nil =>
    rw [List.sum_nil, Nat.add_zero, h.bytesread] at hsum
    refine iff_of_true ⟨h.offset, hsum ▸ h.result⟩ ?_
    simp
  | cons a as ih =>
    have hrest : ∀ b ∈ as, 1 ≤ b := fun b hb => has b (List.mem_cons_of_mem a hb)
    have hbytes := h.bytesread
    rw [List.sum_cons] at hsum
    have htaken : taken elsize room s.elementsread a = a / elsize := taken_all he hroom (by omega)
    have hcount : (File.round some elsize room a s).elementsread = s.elementsread + a / elsize := by
      simp only [File.round, htaken]
    simp only [File.readLoop, List.forall_mem_cons]
    rw [if_neg (by simp)]
    by_cases hdvd : a % elsize = 0
    · rw [ih hrest (h.round hdvd htaken) (by simp only [File.round]; omega)]
      simp [hdvd]
    simp only [hdvd, false_and, iff_false]
    have hdiv := Nat.div_add_mod' a elsize
    obtain hsmall | hlarge := Nat.lt_or_ge a elsize
    · have hpending : Pending elsize (File.round some elsize room a s) := h.pending (has a List.mem_cons_self) hsmall
      rw [Nat.div_eq_of_lt hsmall, Nat.add_zero] at hcount
      cases as with
      | nil => exact fun hright => hpending.offset_pos.ne' hright.1
      | cons c as =>
        rw [List.sum_cons] at hsum
        have htaken' : taken elsize room (File.round some elsize room a s).elementsread c = c / elsize :=
          taken_all he hroom (by rw [hcount]; omega)
        have hcount' : (File.round some elsize room c (File.round some elsize room a s)).elementsread =
            s.elementsread + c / elsize := by
          rw [← hcount, ← htaken']
          rfl
        simp only [File.readLoop]
        rw [if_neg (by simp)]
        apply (hpending.doomed he htaken').not_right he _ _ hroom
        · simp
        · rw [hcount']
          apply Nat.lt_of_mul_lt_mul_right (a := elsize)
          rw [Nat.add_mul]
          have := Nat.div_mul_le_self c elsize
          have := has a List.mem_cons_self
          omega
        · exact fun b hb => hrest b (List.mem_cons_of_mem c hb)
    · apply (h.doomed he hlarge hdvd htaken).not_right he _ hrest hroom
      · simp
      · rw [hcount]
        apply Nat.lt_of_mul_lt_mul_right (a := elsize)
        rw [Nat.add_mul]
        omega

/-! ## The first byte -/

theorem length_readLoop (as : List ℕ) (h : s.result.length = s.elementsread * elsize) :
    (readLoop some elsize room elements as s).result.length =
      (readLoop some elsize room elements as s).elementsread * elsize := by
  induction as generalizing s with
  | nil => exact h
  | cons a as ih =>
    have hround : (round some elsize room a s).result.length = (round some elsize room a s).elementsread * elsize := by
      simp only [round, List.length_append, List.length_map, List.length_range, h, Nat.add_mul]
    simp only [readLoop]
    split
    · exact hround
    · exact ih hround

/-- The first byte of the stream is the first one of the buffer until it is the first one of the result. -/
structure Begun (elsize : ℕ) (s : Reading (Option ℕ)) : Prop where
  length : s.result.length = s.elementsread * elsize
  first : s.result = [] ∧ (s.offset = 0 ∧ s.bytesread = 0 ∨ 0 < s.offset ∧ s.elbuf 0 = some 0) ∨
    s.result.head? = some (some 0)

theorem Begun.round (he : 1 ≤ elsize) (h : Begun elsize s) (ha : 1 ≤ a) (hroom : ∀ w ∈ room, 0 < w) :
    Begun elsize (File.round some elsize room a s) where
  length := by simp only [File.round, List.length_append, List.length_map, List.length_range, h.length, Nat.add_mul]
  first := by
    obtain ⟨hempty, hfirst⟩ | hhead := h.first
    · have hzero : s.elementsread = 0 := by
        have hlength := h.length
        rw [hempty, List.length_nil] at hlength
        exact (Nat.mul_eq_zero.mp hlength.symm).resolve_right (by omega)
      have hbyte : (File.round some elsize room a s).elbuf 0 = some 0 := by
        simp only [File.round]
        obtain ⟨hoffset, hbytes⟩ | ⟨hoffset, helbuf⟩ := hfirst
        · rw [if_pos (by omega), hbytes, Nat.zero_sub]
        · rwa [if_neg (by omega)]
      obtain hsmall | hlarge := Nat.lt_or_ge a elsize
      · left
        refine ⟨?_, Or.inr ⟨?_, hbyte⟩⟩
        · simp [File.round, taken_of_lt hsmall, hempty]
        · simp only [File.round, Nat.mod_eq_of_lt hsmall]
          omega
      · right
        have htaken : 0 < taken elsize room s.elementsread a := taken_pos he hlarge (by rwa [hzero])
        have hmany := Nat.mul_pos htaken he
        show (s.result ++ (List.range _).map (File.round some elsize room a s).elbuf).head? = some (some 0)
        rw [hempty, List.nil_append, List.head?_map, List.head?_range, if_neg hmany.ne', Option.map_some, hbyte]
    · right
      simp only [File.round, List.head?_append, hhead, Option.some_or]

theorem Begun.readLoop (he : 1 ≤ elsize) {as : List ℕ} (has : ∀ a ∈ as, 1 ≤ a) (hroom : ∀ w ∈ room, 0 < w)
    (h : Begun elsize s) : (readLoop some elsize room elements as s).result = [] ∨
      (File.readLoop some elsize room elements as s).result.head? = some (some 0) := by
  induction as generalizing s with
  | nil => exact h.first.imp And.left id
  | cons a as ih =>
    have hround := h.round he (has a List.mem_cons_self) hroom
    simp only [File.readLoop]
    split
    · exact hround.first.imp And.left id
    · exact ih (fun b hb => has b (List.mem_cons_of_mem a hb)) hround

/-! ## `ReadArray` on positions -/

/-- The answers that `ReadArray` copes with. -/
def Served (known : Bool) (elsize : ℕ) (as : List ℕ) : Option ℕ → Prop
  | none => ∀ a ∈ as, a % elsize = 0
  | some n => if known then leftOver elsize n as = some [] else (leftOver elsize n as).isSome

theorem aligned_initial : Aligned elsize { elbuf := fun _ => none } := ⟨rfl, by simp, by simp [positions]⟩

theorem none_notMem_positions (n : ℕ) : none ∉ positions n := by simp [positions]

theorem append_zeros_eq_positions {l : List (Option ℕ)} {n : ℕ} :
    l ++ List.replicate (n - l.length) none = positions n ↔ l = positions n := by
  constructor
  · intro h
    by_cases hn : n - l.length = 0
    · rwa [hn, List.replicate_zero, List.append_nil] at h
    · exfalso
      apply none_notMem_positions n
      rw [← h, List.mem_append, List.mem_replicate]
      exact Or.inr ⟨hn, rfl⟩
  · rintro rfl
    rw [length_positions, Nat.sub_self, List.replicate_zero, List.append_nil]

theorem sum_leftOver {n : ℕ} {as rest : List ℕ} (has : ∀ a ∈ as, 1 ≤ a) (h : leftOver elsize n as = some rest) :
    rest.sum = 0 ↔ rest = [] := by
  have hmem : ∀ a ∈ rest, 1 ≤ a := by
    induction as generalizing n with
    | nil =>
      rw [leftOver] at h
      split at h <;> simp_all
    | cons a as ih =>
      have hrest : ∀ b ∈ as, 1 ≤ b := fun b hb => has b (List.mem_cons_of_mem a hb)
      rw [leftOver] at h
      split at h
      · exact Option.some.inj h ▸ hrest
      split at h
      · exact ih hrest h
      split at h
      · obtain ⟨c, -, h⟩ := Option.bind_eq_some_iff.mp h
        split at h
        · exact Option.some.inj h ▸ fun b hb => hrest b (List.mem_of_mem_tail hb)
        · simp at h
      · simp at h
  cases rest with
  | nil => simp
  | cons a rest =>
    have := hmem a List.mem_cons_self
    simp only [List.sum_cons, reduceCtorEq, iff_false]
    omega

theorem readUnknown_positions (he : 1 ≤ elsize) {buffer count : ℕ} (hbuffer : newBuffer elsize = some buffer)
    {as : List ℕ} (has : ∀ a ∈ as, 1 ≤ a) (hsum : as.sum = count * elsize) :
    readUnknown none some elsize elements as = some (positions (elements.getD count * elsize)) ↔
      Served false elsize as elements := by
  have hlength : (readLoop some elsize elements elements as { elbuf := fun _ => none }).result.length =
      (readLoop some elsize elements elements as { elbuf := fun _ => none }).elementsread * elsize :=
    length_readLoop as (by simp)
  simp only [readUnknown, hbuffer, Option.bind_some]
  cases elements with
  | none =>
    have hall : Right elsize count (readLoop some elsize none none as { elbuf := fun _ => none }) ↔ _ :=
      aligned_initial.readLoop_all he (by simp) has (by simpa using hsum)
    simp only [Served, ← hall, Right, Option.any_none, Option.getD_none, Bool.false_eq_true, if_false]
    split <;> simp_all
  | some n =>
    have hlimit := aligned_initial.readLoop_limit he has (Nat.zero_le n)
    have hcount : (readLoop some elsize (some n) (some n) as { elbuf := fun _ => none }).result =
        positions (n * elsize) → n = (readLoop some elsize (some n) (some n) as { elbuf := fun _ => none }).elementsread := by
      intro hresult
      rw [hresult, length_positions] at hlength
      exact Nat.eq_of_mul_eq_mul_right he hlength
    simp only [Nat.sub_zero] at hlimit
    simp only [Served, Option.any_some, decide_eq_true_eq, Option.getD_some, Bool.false_eq_true, if_false]
    obtain ⟨rest, hrest, hright, -⟩ | ⟨hnone, hwrong⟩ := hlimit
    · rw [if_neg (not_not.mpr hright.1), if_neg (not_not.mpr (hcount hright.2)), hright.2, hrest]
      simp
    · rw [hnone]
      simp only [Option.isSome_none, Bool.false_eq_true, iff_false]
      split
      · simp
      split
      · simp
      · exact fun h => hwrong ⟨not_not.mp ‹_›, Option.some.inj h⟩

theorem readKnown_positions (he : 1 ≤ elsize) {buffer count : ℕ} (hbuffer : newBuffer elsize = some buffer)
    {as : List ℕ} (has : ∀ a ∈ as, 1 ≤ a) (hsum : as.sum = count * elsize) (hlimit : ∀ n ∈ elements, n ≤ count) :
    readKnown none some elsize (count * elsize) elements as = some (positions (elements.getD count * elsize)) ↔
      Served true elsize as elements := by
  simp only [readKnown, hbuffer, Option.bind_some, Nat.mul_mod_left, Nat.mul_div_cancel _ he, ne_eq, not_true_eq_false,
    if_false]
  cases elements with
  | none =>
    have hall : Right elsize count (readLoop some elsize (some count) none as { elbuf := fun _ => none }) ↔ _ :=
      aligned_initial.readLoop_all he (by simp) has (by simpa using hsum)
    simp only [Served, ← hall, Right, Option.any_none, Option.getD_none, Bool.false_eq_true, if_false, Option.elim_none,
      not_true_eq_false, and_false, or_false]
    split
    · simp_all
    · simp_all [append_zeros_eq_positions]
  | some n =>
    have hmin : min n count = n := Nat.min_eq_left (hlimit n rfl)
    have hread := aligned_initial.readLoop_limit he has (Nat.zero_le n)
    simp only [Nat.sub_zero, Nat.zero_add] at hread
    simp only [Served, Option.elim_some, hmin, Option.any_some, not_true_eq_false, decide_false, Bool.false_eq_true,
      if_false, if_true, Option.getD_some, reduceCtorEq, not_false_eq_true, and_true]
    obtain ⟨rest, hrest, hright, hbytes⟩ | ⟨hnone, hwrong⟩ := hread
    · have hempty := sum_leftOver has hrest
      rw [hrest, Option.some.injEq, ← hempty, hright.1, append_zeros_eq_positions.mpr hright.2]
      simp only [not_true_eq_false, false_or]
      rw [hsum] at hbytes
      split
      · simp only [reduceCtorEq, false_iff]
        omega
      · simp only [true_iff]
        omega
    · rw [hnone]
      simp only [reduceCtorEq, iff_false]
      split
      · simp
      · intro h
        have hoff := not_or.mp ‹_›
        exact hwrong ⟨not_not.mp hoff.1, append_zeros_eq_positions.mp (Option.some.inj h)⟩

end

/-! ## Answers -/

theorem Answers.one_le {buffer elsize streamlen offset : ℕ} {as : List ℕ}
    (h : Answers buffer elsize streamlen offset as) : ∀ a ∈ as, 1 ≤ a := by
  induction as generalizing streamlen offset with
  | nil => simp
  | cons a as ih => exact List.forall_mem_cons.mpr ⟨h.1, ih h.2.2.2⟩

theorem Answers.sum_le {buffer elsize streamlen offset : ℕ} {as : List ℕ}
    (h : Answers buffer elsize streamlen offset as) : as.sum ≤ streamlen := by
  induction as generalizing streamlen offset with
  | nil => simp
  | cons a as ih =>
    have := ih h.2.2.2
    have := h.2.2.1
    rw [List.sum_cons]
    omega

/-- As the buffer has room for an element, the stream is read to its end. -/
theorem Answers.sum_eq {buffer elsize streamlen offset : ℕ} {as : List ℕ} (he : 1 ≤ elsize)
    (hbuffer : elsize ≤ buffer) (hoffset : offset < elsize) (h : Answers buffer elsize streamlen offset as) :
    as.sum = streamlen := by
  induction as generalizing streamlen offset with
  | nil =>
    have : streamlen = 0 ∨ buffer ≤ offset := h
    rw [List.sum_nil]
    omega
  | cons a as ih =>
    have := ih (Nat.mod_lt a he) h.2.2.2
    have := h.2.2.1
    rw [List.sum_cons]
    omega

/-! ## Round trip -/

/-- What `ToFile(data, stream, count, offset)` writes is read back, whatever the data. -/
def RoundTrip (known : Bool) (elsize length offset count : ℕ) (elements : Option ℕ) (as : List ℕ) : Prop :=
  ∀ mem : ℤ → UInt8, ((toFile mem elsize length count offset).bind fun file =>
    readArray known 0 (fun i => file.getD i 0) elsize file.length elements as) =
      some (copy mem ((offset * elsize : ℕ) : ℤ) (elements.getD count * elsize))

/-- `ReadArray` throws, whatever the stream holds. -/
def Rejected (known : Bool) (elsize streamlen : ℕ) (elements : Option ℕ) (as : List ℕ) : Prop :=
  ∀ get : ℕ → UInt8, readArray known 0 get elsize streamlen elements as = none

/-- The byte that the reader puts where it puts position `i` of the file. -/
def byteAt (mem : ℤ → UInt8) (pos : ℤ) (n : ℕ) (o : Option ℕ) : UInt8 :=
  o.elim 0 fun i => if i < n then mem (pos + i) else 0

theorem getD_copy (mem : ℤ → UInt8) (pos : ℤ) (n i : ℕ) : (copy mem pos n).getD i 0 = byteAt mem pos n (some i) := by
  simp only [copy, byteAt, Option.elim_some, List.getD_eq_getElem?_getD, List.getElem?_map]
  split
  · next h => rw [List.getElem?_range h, Option.map_some, Option.getD_some]
  · next h => rw [List.getElem?_eq_none (by simpa using h), Option.map_none, Option.getD_none]

theorem map_positions (mem : ℤ → UInt8) (pos : ℤ) {n k : ℕ} (h : k ≤ n) :
    (positions k).map (byteAt mem pos n) = copy mem pos k := by
  rw [positions, copy, List.map_map]
  apply List.map_congr_left
  intro i hi
  have := List.mem_range.mp hi
  simp only [Function.comp_apply, byteAt, Option.elim_some]
  rw [if_pos (by omega)]

/-- Bytes that come out right whatever the data come from the right places. -/
theorem getElem?_of_forall_copy {r : List (Option ℕ)} {pos pos' : ℤ} {n k j : ℕ} (hj : j < k)
    (h : ∀ mem : ℤ → UInt8, r.map (byteAt mem pos n) = copy mem pos' k) :
    ∃ i : ℕ, r[j]? = some (some i) ∧ pos + i = pos' + j := by
  have hbyte := congrArg (fun l => l[j]?) (h fun x => if x = pos' + j then 1 else 0)
  simp only [copy, List.getElem?_map, List.getElem?_range hj, Option.map_some, if_true] at hbyte
  obtain ⟨o, ho, hone⟩ := Option.map_eq_some_iff.mp hbyte
  cases o with
  | none => simp [byteAt] at hone
  | some i =>
    refine ⟨i, ho, ?_⟩
    by_contra hne
    simp [byteAt, hne] at hone

theorem roundTrip_eq {known : Bool} {elsize length offset count : ℕ} {elements : Option ℕ} {as : List ℕ}
    (he : 1 ≤ elsize) (hin : count + offset ≤ length) {buffer : ℕ} (hbuffer : newBuffer elsize = some buffer)
    (hfits : count = 0 ∨ elsize ≤ buffer) :
    RoundTrip known elsize length offset count elements as ↔ ∀ mem : ℤ → UInt8,
      (readArray known none some elsize (count * elsize) elements as).map
        (List.map (byteAt mem (toInt32 ((offset * elsize : ℕ) : ℤ)) (count * elsize))) =
      some (copy mem ((offset * elsize : ℕ) : ℤ) (elements.getD count * elsize)) := by
  unfold RoundTrip
  apply forall_congr'
  intro mem
  rw [toFile_eq_some he hin hbuffer hfits, Option.bind_some, length_copy, ← readArray_map]
  simp only [getD_copy]
  rfl

theorem readArray_positions {known : Bool} {elsize : ℕ} {elements : Option ℕ} (he : 1 ≤ elsize) {buffer count : ℕ}
    (hbuffer : newBuffer elsize = some buffer) {as : List ℕ} (has : ∀ a ∈ as, 1 ≤ a)
    (hsum : as.sum = count * elsize) (hlimit : ∀ n ∈ elements, n ≤ count) :
    readArray known none some elsize (count * elsize) elements as = some (positions (elements.getD count * elsize)) ↔
      Served known elsize as elements := by
  cases known with
  | false =>
    rw [readArray, if_neg (by simp)]
    exact readUnknown_positions he hbuffer has hsum
  | true =>
    rw [readArray, if_pos rfl]
    exact readKnown_positions he hbuffer has hsum hlimit

theorem readArray_result {known : Bool} {elsize streamlen : ℕ} {elements : Option ℕ} {as : List ℕ}
    {r : List (Option ℕ)} (hr : readArray known none some elsize streamlen elements as = some r) :
    ∃ k room, (∀ w ∈ room, elements = some w ∨
        w = elements.elim (streamlen / elsize) fun n => min n (streamlen / elsize)) ∧
      r = (readLoop some elsize room elements as { elbuf := fun _ => none }).result ++ List.replicate k none := by
  cases hbuffer : newBuffer elsize with
  | none => cases known <;> simp [readArray, readKnown, readUnknown, hbuffer] at hr
  | some buffer =>
    cases known with
    | false =>
      simp only [readArray, readUnknown, hbuffer, Option.bind_some, Bool.false_eq_true, if_false] at hr
      split at hr
      · simp at hr
      split at hr
      · simp at hr
      · refine ⟨0, elements, ?_, by simpa using hr.symm⟩
        exact fun w hw => Or.inl hw
    | true =>
      simp only [readArray, readKnown, hbuffer, Option.bind_some, if_true] at hr
      split at hr
      · simp at hr
      split at hr
      · simp at hr
      split at hr
      · simp at hr
      · refine ⟨_, _, ?_, (Option.some.inj hr).symm⟩
        exact fun w hw => Or.inr (Option.some.inj hw).symm

theorem getElem?_zero_readArray {known : Bool} {elsize count : ℕ} {elements : Option ℕ} (he : 1 ≤ elsize)
    {as : List ℕ} (has : ∀ a ∈ as, 1 ≤ a) (hlimit : ∀ n ∈ elements, n ≤ count) (hpos : 0 < elements.getD count)
    {r : List (Option ℕ)} {i : ℕ} (hr : readArray known none some elsize (count * elsize) elements as = some r)
    (hi : r[0]? = some (some i)) : i = 0 := by
  obtain ⟨k, room, hroom, rfl⟩ := readArray_result hr
  rw [Nat.mul_div_cancel _ he] at hroom
  have hroom' : ∀ w ∈ room, 0 < w := by
    intro w hw
    obtain rfl | rfl := hroom w hw
    · exact hpos
    · cases elements with
      | none => exact hpos
      | some n => exact lt_min hpos (hpos.trans_le (hlimit n rfl))
  have hbegun : Begun elsize { elbuf := fun _ => none } :=
    ⟨(Nat.zero_mul elsize).symm, Or.inl ⟨rfl, Or.inl ⟨rfl, rfl⟩⟩⟩
  obtain hempty | hhead := hbegun.readLoop he has hroom'
  · rw [hempty, List.nil_append] at hi
    have hmem := List.mem_of_getElem? hi
    rw [List.mem_replicate] at hmem
    exact absurd hmem.2 (by simp)
  · rw [← List.head?_eq_getElem?, List.head?_append, hhead, Option.some_or] at hi
    simpa using hi.symm

/-- The reader puts every byte where it belongs iff this holds of positions, and the writer found the array. -/
theorem forall_map_iff {known : Bool} {elsize count : ℕ} {elements : Option ℕ} (he : 1 ≤ elsize) {as : List ℕ}
    (has : ∀ a ∈ as, 1 ≤ a) (hlimit : ∀ n ∈ elements, n ≤ count) (pos pos' : ℤ) :
    (∀ mem : ℤ → UInt8, (readArray known none some elsize (count * elsize) elements as).map
        (List.map (byteAt mem pos (count * elsize))) = some (copy mem pos' (elements.getD count * elsize))) ↔
      (elements.getD count = 0 ∨ pos = pos') ∧
        readArray known none some elsize (count * elsize) elements as = some (positions (elements.getD count * elsize)) := by
  have hle : elements.getD count * elsize ≤ count * elsize := by
    apply Nat.mul_le_mul_right
    cases elements with
    | none => exact le_rfl
    | some n => exact hlimit n rfl
  constructor
  · intro h
    obtain ⟨r, hr, -⟩ := Option.map_eq_some_iff.mp (h fun _ => 0)
    rw [hr] at h ⊢
    simp only [Option.map_some, Option.some.injEq] at h ⊢
    have hlength := congrArg List.length (h fun _ => 0)
    rw [List.length_map, length_copy] at hlength
    by_cases hzero : elements.getD count = 0
    · refine ⟨Or.inl hzero, ?_⟩
      rw [hzero, Nat.zero_mul, List.length_eq_zero_iff] at hlength
      rw [hzero, hlength, Nat.zero_mul]
      rfl
    · have hmany : 0 < elements.getD count * elsize := Nat.mul_pos (Nat.pos_of_ne_zero hzero) he
      obtain ⟨i, hi, hpos⟩ := getElem?_of_forall_copy hmany h
      obtain rfl := getElem?_zero_readArray he has hlimit (Nat.pos_of_ne_zero hzero) hr hi
      have hsame : pos = pos' := by omega
      refine ⟨Or.inr hsame, List.ext_getElem? fun j => ?_⟩
      obtain hj | hj := Nat.lt_or_ge j (elements.getD count * elsize)
      · obtain ⟨x, hx, hplace⟩ := getElem?_of_forall_copy hj h
        rw [hx, positions, List.getElem?_map, List.getElem?_range hj, Option.map_some]
        congr 2
        omega
      · rw [List.getElem?_eq_none (by omega), List.getElem?_eq_none (by rwa [length_positions])]
  · rintro ⟨hpos, hread⟩ mem
    rw [hread, Option.map_some, map_positions mem pos hle]
    obtain hzero | rfl := hpos
    · rw [hzero, Nat.zero_mul]
      rfl
    · rfl

/-! ## Streams that end within an element -/

/-- The answers at which `ReadArray` notices it. -/
def Detected (known : Bool) (elsize : ℕ) (as : List ℕ) : Option ℕ → Prop
  | none => known ∨ newBuffer elsize = none ∨ ∃ a ∈ as.getLast?, a % elsize ≠ 0
  | some n => known ∨ newBuffer elsize = none ∨ (as.map (· / elsize)).sum < n

section
variable {β : Type} (get : ℕ → β) (elsize : ℕ)

theorem offset_readLoop (as : List ℕ) (s : Reading β) :
    (readLoop get elsize none none as s).offset = (as.getLast?.map (· % elsize)).getD s.offset := by
  induction as generalizing s with
  | nil => rfl
  | cons a as ih =>
    simp only [readLoop, reduceCtorEq, if_false]
    rw [ih, List.getLast?_cons]
    cases as.getLast? <;> rfl

theorem elementsread_readLoop {n : ℕ} (as : List ℕ) {s : Reading β} (hle : s.elementsread ≤ n)
    (h : s.elementsread = n → s.offset = 0) :
    if s.elementsread + (as.map (· / elsize)).sum < n then
      (readLoop get elsize (some n) (some n) as s).elementsread = s.elementsread + (as.map (· / elsize)).sum
    else (readLoop get elsize (some n) (some n) as s).elementsread = n ∧
      (readLoop get elsize (some n) (some n) as s).offset = 0 := by
  induction as generalizing s with
  | nil =>
    simp only [readLoop, List.map_nil, List.sum_nil, Nat.add_zero]
    split
    · trivial
    · exact ⟨by omega, h (by omega)⟩
  | cons a as ih =>
    have hcount : (round get elsize (some n) a s).elementsread = s.elementsread + min (a / elsize) (n - s.elementsread) :=
      rfl
    simp only [readLoop, List.map_cons, List.sum_cons]
    by_cases hdone : n = (round get elsize (some n) a s).elementsread
    · rw [if_pos (congrArg some hdone), if_neg (by omega)]
      exact ⟨hdone.symm, rfl⟩
    · have hnext := ih (s := round get elsize (some n) a s) (by omega) (by omega)
      have hmore : ¬some n = some (round get elsize (some n) a s).elementsread := fun heq => hdone (Option.some.inj heq)
      have hfewer : a / elsize ≤ n - s.elementsread := by omega
      rw [hcount, Nat.min_eq_left hfewer, Nat.add_assoc] at hnext
      rwa [if_neg hmore]

end

theorem rejected_iff {known : Bool} {elsize streamlen : ℕ} (hcut : streamlen % elsize ≠ 0) (elements : Option ℕ)
    (as : List ℕ) : Rejected known elsize streamlen elements as ↔ Detected known elsize as elements := by
  cases hbuffer : newBuffer elsize with
  | none =>
    refine iff_of_true (fun get => ?_) ?_
    · cases known <;> simp [readArray, readKnown, readUnknown, hbuffer]
    · cases elements <;> simp [Detected, hbuffer]
  | some buffer =>
    cases known with
    | true =>
      refine iff_of_true (fun get => ?_) ?_
      · simp [readArray, readKnown, hbuffer, hcut]
      · cases elements <;> simp [Detected]
    | false =>
      cases elements with
      | none =>
        have hread : ∀ get : ℕ → UInt8, readArray false 0 get elsize streamlen none as = none ↔
            ∃ a ∈ as.getLast?, a % elsize ≠ 0 := by
          intro get
          simp only [readArray, readUnknown, hbuffer, Option.bind_some, offset_readLoop, Bool.false_eq_true, if_false,
            Option.any_none]
          cases as.getLast? <;> simp
        simp [Rejected, hread, Detected, hbuffer]
      | some n =>
        have hread : ∀ get : ℕ → UInt8, readArray false 0 get elsize streamlen (some n) as = none ↔
            (as.map (· / elsize)).sum < n := by
          intro get
          have hstop := elementsread_readLoop get elsize as (s := { elbuf := fun _ => 0 }) (Nat.zero_le n) fun _ => rfl
          simp only [Nat.zero_add] at hstop
          simp only [readArray, readUnknown, hbuffer, Option.bind_some, Bool.false_eq_true, if_false, Option.any_some]
          split at hstop
          · next hfew =>
            simp only [hstop]
            simp [hfew, (show n ≠ _ from hfew.ne')]
          · next hmany =>
            simp [hstop.1, hstop.2, hmany]
        simp [Rejected, hread, Detected, hbuffer]

/-! ## Results -/

/-- An array that was written is read back, also in part, iff the buffer has space for an element, the position
in bytes is an `int`, and the answers of the stream are those the loops cope with; a stream that ends within an
element is rejected iff the loops come to see its end. -/
theorem readArray_toFile_iff {elsize : ℕ} (he : 1 ≤ elsize) (known : Bool) (elements : Option ℕ) (as : List ℕ) :
    (∀ length offset count, count + offset ≤ length → (∀ n ∈ elements, n ≤ count) →
      Answers ((newBuffer elsize).getD 0) elsize (count * elsize) 0 as →
        (RoundTrip known elsize length offset count elements as ↔
          (∃ buffer, newBuffer elsize = some buffer ∧ (count = 0 ∨ elsize ≤ buffer)) ∧
            (elements.getD count = 0 ∨ FitsInt32 ((offset * elsize : ℕ) : ℤ)) ∧ Served known elsize as elements)) ∧
    ∀ streamlen, streamlen % elsize ≠ 0 →
      (Rejected known elsize streamlen elements as ↔ Detected known elsize as elements) := by
  refine ⟨fun length offset count hin hlimit hanswers => ?_, fun streamlen hcut => rejected_iff hcut _ _⟩
  by_cases hwritten : ∃ buffer, newBuffer elsize = some buffer ∧ (count = 0 ∨ elsize ≤ buffer)
  · obtain ⟨buffer, hbuffer, hfits⟩ := hwritten
    have hsum : as.sum = count * elsize := by
      obtain rfl | hfits := hfits
      · have := hanswers.sum_le
        omega
      · rw [hbuffer] at hanswers
        exact hanswers.sum_eq he hfits he
    rw [roundTrip_eq he hin hbuffer hfits, forall_map_iff he hanswers.one_le hlimit, toInt32_eq_self_iff,
      readArray_positions he hbuffer hanswers.one_le hsum hlimit]
    simp only [hbuffer, Option.some.injEq, exists_eq_left', hfits, true_and]
  · refine iff_of_false (fun h => ?_) fun h => hwritten h.1
    have hread := h fun _ => 0
    rw [toFile_eq_none hwritten, Option.bind_none] at hread
    simp at hread

theorem readArray_toFile_limited :
    (RoundTrip true 2 5 1 3 (some 2) [6] ↔
      (∃ buffer, newBuffer 2 = some buffer ∧ (3 = 0 ∨ 2 ≤ buffer)) ∧
        ((some 2).getD 3 = 0 ∨ FitsInt32 ((1 * 2 : ℕ) : ℤ)) ∧ Served true 2 [6] (some 2)) ∧
      (Rejected true 2 7 (some 2) [6] ↔ Detected true 2 [6] (some 2)) :=
  ⟨(readArray_toFile_iff (by decide) true (some 2) [6]).1 5 1 3 (by decide) (by simp)
    ⟨by decide, by decide, by decide, Or.inl rfl⟩,
    (readArray_toFile_iff (by decide) true (some 2) [6]).2 7 (by decide)⟩

/-- One element of two bytes, read byte by byte; and the first of two elements of one byte each, which come one
by one. -/
theorem not_readArray_toFile_piecewise :
    Answers ((newBuffer 2).getD 0) 2 (1 * 2) 0 [1, 1] ∧ ¬RoundTrip true 2 1 0 1 none [1, 1] ∧
      Answers ((newBuffer 1).getD 0) 1 (2 * 1) 0 [1, 1] ∧ ¬RoundTrip true 1 2 0 2 (some 1) [1, 1] := by
  refine ⟨⟨by decide, by decide, by decide, by decide, by decide, by decide, Or.inl rfl⟩, fun h => ?_,
    ⟨by decide, by decide, by decide, by decide, by decide, by decide, Or.inl rfl⟩, fun h => ?_⟩
  · have hread := h fun _ => 0
    rw [toFile_eq_some (by decide) (by decide) (show newBuffer 2 = some 16384 by decide) (by decide)] at hread
    revert hread
    decide
  · have hread := h fun _ => 0
    rw [toFile_eq_some (by decide) (by decide) (show newBuffer 1 = some 8192 by decide) (by decide)] at hread
    revert hread
    decide

end Bohrium.NumCil.File
