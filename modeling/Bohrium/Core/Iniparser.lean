import Bohrium.Core.Dictionary
import Mathlib.Data.List.DropRight
import Mathlib.Data.List.Flatten

/-! # Ini files

`iniparser_load`: the lines of a file, each read with `sscanf` patterns, into a dictionary. -/
namespace Bohrium.Iniparser
set_option autoImplicit false

def ASCIILINESZ : ℕ := 1024

/-- The byte of a character. -/
def ch (c : Char) : UInt8 := UInt8.ofNat c.toNat

def newline : UInt8 := 10

def backslash : UInt8 := 92

def isspace (c : UInt8) : Bool := c = 32 ∨ 9 ≤ c ∧ c ≤ 13

def tolower (c : UInt8) : UInt8 := if 65 ≤ c ∧ c ≤ 90 then c + 32 else c

def strlwc (s : Bytes) : Bytes := (s.take ASCIILINESZ).map tolower

def strstrip (s : Bytes) : Bytes := (s.dropWhile isspace).rdropWhile isspace

/-! ## `sscanf` -/

/-- What a format is made of: white space, a literal character, and the conversions `%[..]` and `%[^..]`. -/
inductive Directive
  | white
  | literal (c : UInt8)
  | field (inverted : Bool) (chars : Bytes)
  deriving DecidableEq, Repr

/-- The fields that are filled before the text fails to match. -/
def sscanf : List Directive → Bytes → List Bytes
  | [], _ => []
  | .white :: format, s => sscanf format (s.dropWhile isspace)
  | .literal c :: format, s => if s.head? = some c then sscanf format s.tail else []
  | .field inverted chars :: format, s =>
    let accepts := fun c => chars.contains c != inverted
    if s.takeWhile accepts = [] then [] else s.takeWhile accepts :: sscanf format (s.dropWhile accepts)

/-- `%[^=] =`, which all the patterns of a value begin with. -/
def keyFormat : List Directive := [.field true [ch '='], .white, .literal (ch '=')]

def sectionFormat : List Directive := [.literal (ch '['), .field true [ch ']']]

def doubleQuoted : List Directive := keyFormat ++ [.white, .literal 34, .field true [34], .literal 34]

def singleQuoted : List Directive := keyFormat ++ [.white, .literal 39, .field true [39], .literal 39]

def unquoted : List Directive := keyFormat ++ [.white, .field true [ch ';', ch '#']]

/-- `key=;` and `key=#`. -/
def noValue : List Directive := keyFormat ++ [.white, .field false [ch ';', ch '#']]

/-- `key=`. -/
def bareKey : List Directive := [.field true [ch '='], .white, .field false [ch '=']]

/-! ## Lines -/

/-- The status of a line, with what it puts into the buffers. -/
inductive Line
  | empty
  | comment
  | sect (name : Bytes)
  | value (key val : Bytes)
  | error
  deriving DecidableEq, Repr

/-- The first of the formats that fills both fields. -/
def firstMatch (formats : List (List Directive)) (line : Bytes) : Option (List Bytes) :=
  (formats.map fun format => sscanf format line).find? fun fields => fields.length = 2

/-- `iniparser_line`. The name of a section stays what it was if the pattern finds none. -/
def iniparserLine (input sect : Bytes) : Line :=
  let line := strstrip input
  if line = [] then .empty
  else if line.head? = some (ch '#') ∨ line.head? = some (ch ';') then .comment
  else if line.head? = some (ch '[') ∧ line.getLast? = some (ch ']') then
    .sect (strlwc (strstrip ((sscanf sectionFormat line).headD sect)))
  else
    (firstMatch [doubleQuoted, singleQuoted, unquoted] line).elim
      ((firstMatch [noValue, bareKey] line).elim .error fun fields => .value (strlwc (strstrip (fields.getD 0 []))) [])
      fun fields =>
        let value := strstrip (fields.getD 1 [])
        .value (strlwc (strstrip (fields.getD 0 []))) (if value = [34, 34] ∨ value = [39, 39] then [] else value)

/-! ## Files -/

/-- `fgets` with room for `n` characters: what it reads and what is left. -/
def fgets : ℕ → Bytes → Bytes × Bytes
  | 0, text => ([], text)
  | _, [] => ([], [])
  | n + 1, c :: text => if c = newline then ([c], text) else ((c :: (fgets n text).1), (fgets n text).2)

/-- What the loop over the lines keeps. -/
structure Loading where
  sect : Bytes
  dict : Dictionary
  errs : ℕ
  deriving DecidableEq, Repr

/-- The switch on the status of a line, `none` if it writes behind a buffer. The result of `dictionary_set` is stored
in the number of errors. -/
def Loading.line (st : Loading) : Line → Option Loading
  | .empty => some st
  | .comment => some st
  | .sect name => (st.dict.set name none).map fun dict => ⟨name, dict, 0⟩
  | .value key val =>
    if ASCIILINESZ < st.sect.length + 1 + key.length then none
    else (st.dict.set (st.sect ++ ch ':' :: key) (some val)).map fun dict => ⟨st.sect, dict, 0⟩
  | .error => some { st with errs := st.errs + 1 }

/-- What is returned, `none` for `NULL`. -/
def Loading.result (st : Loading) : Option Dictionary := if st.errs = 0 then some st.dict else none

theorem length_fgets (n : ℕ) {text : Bytes} (h : text ≠ []) : (fgets (n + 1) text).2.length < text.length := by
  have hle : ∀ (n : ℕ) (text : Bytes), (fgets n text).2.length ≤ text.length := by
    intro n text
    induction n generalizing text with
    | zero => exact le_rfl
    | succ n ih =>
      cases text with
      | nil => exact le_rfl
      | cons c text =>
        rw [fgets]
        split
        · exact Nat.le_succ _
        · exact (ih text).trans (Nat.le_succ _)
  obtain ⟨c, text, rfl⟩ := List.exists_cons_of_ne_nil h
  rw [fgets]
  split
  · exact Nat.lt_succ_self _
  · exact Nat.lt_succ_of_le (hle n text)

/-- The bytes before the first zero, which `strlen` counts. -/
def cString (s : Bytes) : Bytes := s.takeWhile fun c => c ≠ 0

/-- The loop of `iniparser_load`, `none` if it leaves the line buffer. `line` is the part of the line before `last`.
A zero ends the line, one at its start makes the test for the newline read the byte before the buffer, and so does a
line of spaces the test for a continuation. -/
def loadLoop (text line : Bytes) (st : Loading) : Option (Option Dictionary) :=
  if _ : text = [] then some st.result
  else if ASCIILINESZ ≤ line.length + 1 then none
  else
    let got := fgets (ASCIILINESZ - line.length - 2 + 1) text
    let full := cString (line ++ got.1)
    if full = [] then none
    else if full.length = 1 then loadLoop got.2 line st
    else if full.getLast? ≠ some newline then some none
    else
      let stripped := full.rdropWhile isspace
      if stripped = [] then none
      else if stripped.getLast? = some backslash then loadLoop got.2 stripped.dropLast st
      else (st.line (iniparserLine stripped st.sect)).bind fun st => loadLoop got.2 [] st
termination_by text.length
decreasing_by all_goals exact length_fgets _ ‹_›

/-- `iniparser_load` on the text of a file. -/
def load (text : Bytes) : Option (Option Dictionary) := loadLoop text [] ⟨[], .new 0, 0⟩

/-! ## Plain lines -/

/-- A line that is read in one piece: it fits the buffer, has no zero in it, is not continued and does not consist of
spaces. -/
structure PlainLine (l : Bytes) : Prop where
  single : newline ∉ l
  string : (0 : UInt8) ∉ l
  short : l.length + 2 ≤ ASCIILINESZ
  ink : l ≠ [] → l.rdropWhile isspace ≠ []
  closed : (l.rdropWhile isspace).getLast? ≠ some backslash

/-- What a plain line does. -/
def readLine (st : Loading) (l : Bytes) : Option Loading := st.line (iniparserLine (l.rdropWhile isspace) st.sect)

theorem fgets_line {l : Bytes} (hl : newline ∉ l) {n : ℕ} (hn : l.length < n) (rest : Bytes) :
    fgets n (l ++ newline :: rest) = (l ++ [newline], rest) := by
  induction l generalizing n with
  | nil =>
    obtain ⟨n, rfl⟩ := Nat.exists_eq_succ_of_ne_zero (Nat.ne_of_gt hn)
    rw [List.nil_append, fgets, if_pos rfl, List.nil_append]
  | cons c l ih =>
    rw [List.mem_cons, not_or] at hl
    obtain ⟨n, rfl⟩ := Nat.exists_eq_succ_of_ne_zero (Nat.ne_zero_of_lt hn)
    rw [List.cons_append, fgets, if_neg (Ne.symm hl.1), ih hl.2 (Nat.succ_lt_succ_iff.mp hn), List.cons_append]

theorem loadLoop_line {l : Bytes} (hl : PlainLine l) (rest : Bytes) (st : Loading) :
    loadLoop (l ++ newline :: rest) [] st = (readLine st l).bind fun st => loadLoop rest [] st := by
  have hne : l ++ newline :: rest ≠ [] := fun h => List.cons_ne_nil _ _ (List.append_eq_nil_iff.mp h).2
  have hshort := hl.short
  have hgot : fgets (ASCIILINESZ - ([] : Bytes).length - 2 + 1) (l ++ newline :: rest) = (l ++ [newline], rest) := by
    apply fgets_line hl.single
    rw [List.length_nil]
    omega
  rw [loadLoop, dif_neg hne, if_neg (by rw [List.length_nil, ASCIILINESZ]; omega)]
  have hfull : cString (l ++ [newline]) = l ++ [newline] := by
    rw [cString, List.takeWhile_eq_self_iff]
    intro c hc
    rw [List.mem_append, List.mem_singleton] at hc
    obtain hc | rfl := hc
    · exact decide_eq_true fun h => hl.string (h ▸ hc)
    · decide
  dsimp only
  rw [hgot, List.nil_append, hfull, if_neg (by simp), List.length_append, List.length_singleton, readLine]
  by_cases hnil : l = []
  · subst hnil
    rw [if_pos (by rfl)]
    rfl
  · have hpos := List.length_pos_iff.mpr hnil
    have hstrip : (l ++ [newline]).rdropWhile isspace = l.rdropWhile isspace :=
      List.rdropWhile_concat_pos _ _ _ (by decide)
    rw [if_neg (by omega), List.getLast?_concat, if_neg (by simp), hstrip, if_neg (hl.ink hnil), if_neg hl.closed]

/-- A file of plain lines is read line by line. -/
theorem loadLoop_lines {ls : List Bytes} (hls : ∀ l ∈ ls, PlainLine l) (st : Loading) :
    loadLoop (ls.flatMap fun l => l ++ [newline]) [] st = (ls.foldlM readLine st).map Loading.result := by
  induction ls generalizing st with
  | nil =>
    rw [List.flatMap_nil, loadLoop, dif_pos rfl]
    rfl
  | cons l ls ih =>
    rw [List.forall_mem_cons] at hls
    rw [List.flatMap_cons, List.append_assoc, List.singleton_append, loadLoop_line hls.1, List.foldlM_cons]
    cases readLine st l with
    | none => rfl
    | some st => exact ih hls.2 st

/-! ## Errors -/

/-- The line puts something into the dictionary. -/
def Line.stores : Line → Bool
  | .sect _ => true
  | .value _ _ => true
  | _ => false

/-- The section only matters for the name of a section. -/
theorem iniparserLine_sect (input sect sect' : Bytes) :
    (iniparserLine input sect = .error ↔ iniparserLine input sect' = .error) ∧
      (iniparserLine input sect).stores = (iniparserLine input sect').stores := by
  unfold iniparserLine
  dsimp only
  split
  · exact ⟨Iff.rfl, rfl⟩
  split
  · exact ⟨Iff.rfl, rfl⟩
  split
  · exact ⟨⟨fun h => (nomatch h), fun h => (nomatch h)⟩, rfl⟩
  · exact ⟨Iff.rfl, rfl⟩

/-- The line of a file without the section that it stands in. -/
def lineOf (l : Bytes) : Line := iniparserLine (l.rdropWhile isspace) []

/-- The errors after one more line. -/
def errsAfter (errs : ℕ) (l : Bytes) : ℕ := if (lineOf l).stores then 0 else if lineOf l = .error then errs + 1 else errs

theorem readLine_errs {st st' : Loading} {l : Bytes} (h : readLine st l = some st') : st'.errs = errsAfter st.errs l := by
  obtain ⟨herror, hstores⟩ := iniparserLine_sect (l.rdropWhile isspace) st.sect []
  rw [errsAfter, lineOf, ← hstores, if_congr herror.symm rfl rfl]
  rw [readLine] at h
  generalize iniparserLine (l.rdropWhile isspace) st.sect = line at h
  cases line with
  | empty =>
    obtain rfl := Option.some.inj h
    rfl
  | comment =>
    obtain rfl := Option.some.inj h
    rfl
  | sect name =>
    obtain ⟨dict, -, rfl⟩ := Option.map_eq_some_iff.mp h
    rfl
  | value key val =>
    rw [Loading.line] at h
    split at h
    · cases h
    · obtain ⟨dict, -, rfl⟩ := Option.map_eq_some_iff.mp h
      rfl
  | error =>
    obtain rfl := Option.some.inj h
    rfl

theorem foldlM_errs {ls : List Bytes} {st st' : Loading} (h : ls.foldlM readLine st = some st') :
    st'.errs = ls.foldl errsAfter st.errs := by
  induction ls generalizing st with
  | nil =>
    obtain rfl := Option.some.inj h
    rfl
  | cons l ls ih =>
    rw [List.foldlM_cons] at h
    obtain ⟨mid, hmid, hrest⟩ := Option.bind_eq_some_iff.mp h
    rw [ih hrest, readLine_errs hmid, List.foldl_cons]

/-- An error counts until a line stores something. -/
theorem foldl_errsAfter (ls : List Bytes) : ls.foldl errsAfter 0 ≠ 0 ↔
    ∃ pre l post, ls = pre ++ l :: post ∧ lineOf l = .error ∧ ∀ m ∈ post, (lineOf m).stores = false := by
  induction ls using List.reverseRecOn with
  | nil => simp
  | append_singleton ls l ih =>
    rw [List.foldl_concat, errsAfter]
    have hsplit : (∃ pre m post, ls ++ [l] = pre ++ m :: post ∧ lineOf m = .error ∧ ∀ m ∈ post, (lineOf m).stores = false) ↔
        lineOf l = .error ∨ (lineOf l).stores = false ∧
          ∃ pre m post, ls = pre ++ m :: post ∧ lineOf m = .error ∧ ∀ m ∈ post, (lineOf m).stores = false := by
      constructor
      · intro ⟨pre, m, post, heq, hm, hpost⟩
        obtain rfl | ⟨post', m', rfl⟩ := List.eq_nil_or_concat post
        · obtain ⟨-, hlm⟩ := List.append_inj' heq rfl
          obtain rfl := List.singleton_inj.mp hlm
          exact Or.inl hm
        · rw [List.concat_eq_append] at heq hpost
          have heq' : ls ++ [l] = (pre ++ m :: post') ++ [m'] := by rw [heq, List.append_assoc, List.cons_append]
          obtain ⟨hls, hlm⟩ := List.append_inj' heq' rfl
          obtain rfl := List.singleton_inj.mp hlm
          refine Or.inr ⟨hpost l (by simp), pre, m, post', hls, hm, fun m' hm' => hpost m' (List.mem_append_left _ hm')⟩
      · rintro (hl | ⟨hl, pre, m, post, rfl, hm, hpost⟩)
        · exact ⟨ls, l, [], rfl, hl, by simp⟩
        · refine ⟨pre, m, post ++ [l], by simp, hm, fun m' hm' => ?_⟩
          obtain hm' | hm' := List.mem_append.mp hm'
          · exact hpost m' hm'
          · rw [List.mem_singleton.mp hm', hl]
    rw [hsplit, ← ih]
    split
    · next hs =>
      have hne : lineOf l ≠ .error := fun h => by
        rw [h] at hs
        cases hs
      simp [hs, hne]
    · next hs =>
      split
      · next he => simp [he]
      · next he => simp [hs, he]

/-! ## Names -/

/-- The section after one more line. -/
def sectAfter (sect l : Bytes) : Bytes := match iniparserLine (l.rdropWhile isspace) sect with
  | .sect name => name
  | _ => sect

/-- Wherever a line has a key, the section that it stands in, a colon and the key fit the buffer `tmp`. -/
def NamesFit (ls : List Bytes) : Prop := ∀ pre l post, ls = pre ++ l :: post → ∀ key val,
  iniparserLine (l.rdropWhile isspace) (pre.foldl sectAfter []) = .value key val →
    (pre.foldl sectAfter []).length + 1 + key.length ≤ ASCIILINESZ

/-- A line is read if its name fits. -/
theorem readLine_isSome {st : Loading} (hwf : st.dict.Wf) {l : Bytes}
    (hfit : ∀ key val, iniparserLine (l.rdropWhile isspace) st.sect = .value key val → st.sect.length + 1 + key.length ≤ ASCIILINESZ) :
    ∃ st', readLine st l = some st' ∧ st'.dict.Wf ∧ st'.sect = sectAfter st.sect l := by
  rw [readLine, sectAfter]
  cases hline : iniparserLine (l.rdropWhile isspace) st.sect with
  | empty => exact ⟨st, rfl, hwf, rfl⟩
  | comment => exact ⟨st, rfl, hwf, rfl⟩
  | sect name =>
    obtain ⟨dict, hset, hwf', -⟩ := Dictionary.set_spec hwf name none
    refine ⟨⟨name, dict, 0⟩, ?_, hwf', rfl⟩
    rw [Loading.line, hset]
    rfl
  | value key val =>
    obtain ⟨dict, hset, hwf', -⟩ := Dictionary.set_spec hwf (st.sect ++ ch ':' :: key) (some val)
    have hle := hfit key val hline
    refine ⟨⟨st.sect, dict, 0⟩, ?_, hwf', rfl⟩
    rw [Loading.line, if_neg (Nat.not_lt.mpr hle), hset]
    rfl
  | error => exact ⟨_, rfl, hwf, rfl⟩

theorem foldlM_readLine {ls : List Bytes} (hfit : NamesFit ls) :
    ∃ st, ls.foldlM readLine ⟨[], .new 0, 0⟩ = some st ∧ st.dict.Wf ∧ st.sect = ls.foldl sectAfter [] := by
  induction ls using List.reverseRecOn with
  | nil => exact ⟨_, rfl, Dictionary.wf_new 0, rfl⟩
  | append_singleton ls l ih =>
    have hbefore : NamesFit ls := by
      rintro pre m post rfl
      exact hfit pre m (post ++ [l]) (by simp)
    obtain ⟨st, hst, hwf, hsect⟩ := ih hbefore
    obtain ⟨st', hline, hwf', hsect'⟩ := readLine_isSome hwf (l := l) fun key val hval => by
      rw [hsect] at hval ⊢
      exact hfit ls l [] rfl key val hval
    refine ⟨st', ?_, hwf', ?_⟩
    · rw [List.foldlM_append, hst, Option.bind_eq_bind, Option.bind_some, List.foldlM_cons, hline]
      rfl
    · rw [hsect', hsect, List.foldl_concat]

/-- A file of plain lines whose names fit is read to its end. It is taken, in spite of its syntax errors, if the last of
them is followed by a section or a value. -/
theorem load_eq_null_iff (ls : List Bytes) (hls : ∀ l ∈ ls, PlainLine l) (hfit : NamesFit ls) :
    ∃ r, load (ls.flatMap fun l => l ++ [newline]) = some r ∧
      (r = none ↔ ∃ pre l post, ls = pre ++ l :: post ∧ lineOf l = .error ∧ ∀ m ∈ post, (lineOf m).stores = false) := by
  obtain ⟨st, hst, -, -⟩ := foldlM_readLine hfit
  refine ⟨st.result, by rw [load, loadLoop_lines hls, hst, Option.map_some], ?_⟩
  rw [← foldl_errsAfter, ← foldlM_errs hst, Loading.result]
  split <;> simp [*]

/-- A word and a section. -/
def wordThenSection : List Bytes := [[ch 'x'], [ch '[', ch 's', ch ']']]

theorem load_word_then_section : ∃ r, load (wordThenSection.flatMap fun l => l ++ [newline]) = some r ∧
    (r = none ↔ ∃ pre l post, wordThenSection = pre ++ l :: post ∧ lineOf l = .error ∧ ∀ m ∈ post, (lineOf m).stores = false) := by
  have hls : ∀ l ∈ wordThenSection, PlainLine l := by
    intro l hl
    obtain rfl | rfl := List.mem_pair.mp hl
    · exact ⟨by decide, by decide, by decide, by decide, by decide⟩
    · exact ⟨by decide, by decide, by decide, by decide, by decide⟩
  have hword : iniparserLine ([ch 'x'].rdropWhile isspace) [] = .error := by decide
  have hsect : iniparserLine ([ch '[', ch 's', ch ']'].rdropWhile isspace) [] = .sect [ch 's'] := by decide
  have hfit : NamesFit wordThenSection := by
    intro pre l post hsplit key val hval
    match pre with
    | [] =>
      obtain ⟨rfl, -⟩ := List.cons.inj hsplit
      cases hword.symm.trans hval
    | [word] =>
      obtain ⟨hfirst, hsplit⟩ := List.cons.inj hsplit
      obtain ⟨rfl, -⟩ := List.cons.inj hsplit
      have hsame : [[ch 'x']].foldl sectAfter [] = [] := by rw [List.foldl_cons, List.foldl_nil, sectAfter, hword]
      rw [← hfirst, hsame] at hval
      cases hsect.symm.trans hval
    | _ :: _ :: _ =>
      obtain ⟨-, hsplit⟩ := List.cons.inj hsplit
      obtain ⟨-, hsplit⟩ := List.cons.inj hsplit
      exact absurd hsplit (by simp)
  exact load_eq_null_iff wordThenSection hls hfit

end Bohrium.Iniparser
