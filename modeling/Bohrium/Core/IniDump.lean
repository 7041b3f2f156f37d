import Bohrium.Core.Iniparser
import Mathlib.Data.List.Basic

/-! # Ini files written and read again

`iniparser_dump_ini` writes the sections of a dictionary one after the other, and `iniparser_load` reads them back. -/
namespace Bohrium.Iniparser
set_option autoImplicit false

/-! ## Writing -/

def getnsec (d : Dictionary) : ℕ := d.slots.countP fun s => s.key.any fun key => ch ':' ∉ key

/-- The loop of `iniparser_getsecname`. -/
def getsecnameFrom : List Slot → ℕ → ℕ → Option Bytes
  | [], _, _ => none
  | s :: slots, foundsec, n => s.key.elim (getsecnameFrom slots foundsec n) fun key =>
    if ch ':' ∈ key then getsecnameFrom slots foundsec n
    else if n < foundsec + 1 then some key
    else getsecnameFrom slots (foundsec + 1) n

def getsecname (d : Dictionary) (n : ℕ) : Option Bytes := getsecnameFrom d.slots 0 n

/-- `%-30s = %s`. -/
def keyLine (key val : Bytes) : Bytes := key ++ List.replicate (30 - key.length) (ch ' ') ++ [ch ' ', ch '=', ch ' '] ++ val

/-- The entries of a section, each with its key behind the colon. -/
def dumpKeys (d : Dictionary) (secname : Bytes) : Bytes := d.slots.flatMap fun s => s.key.elim [] fun key =>
  if (secname ++ [ch ':']).isPrefixOf key then keyLine (key.drop (secname.length + 1)) (s.val.getD []) ++ [newline] else []

/-- `iniparser_dump_ini`, `none` if it prints a string that is `NULL` or writes behind a buffer. -/
def dumpIni (d : Dictionary) : Option Bytes :=
  if getnsec d < 1 then
    (d.slots.mapM fun (s : Slot) => s.key.elim (some []) fun key =>
      s.val.map fun val => key ++ [ch ' ', ch '=', ch ' '] ++ val ++ [newline]).map List.flatten
  else
    ((List.range (getnsec d)).mapM fun i => (getsecname d i).bind fun secname =>
      if ASCIILINESZ < secname.length + 1 then none
      else some ([newline, ch '['] ++ secname ++ [ch ']', newline] ++ dumpKeys d secname)).map fun parts => parts.flatten ++ [newline]

/-! ## What can be read back -/

/-- A string in which blanks only stand inside and no line ends. -/
structure Trimmed (s : Bytes) : Prop where
  string : (0 : UInt8) ∉ s
  first : ∀ c ∈ s.head?, isspace c = false
  last : ∀ c ∈ s.getLast?, isspace c = false
  single : newline ∉ s

structure SectionName (s : Bytes) : Prop extends Trimmed s where
  nonempty : s ≠ []
  lower : s.map tolower = s
  closed : ch ']' ∉ s
  short : s.length + 4 ≤ ASCIILINESZ

structure KeyName (key : Bytes) : Prop extends Trimmed key where
  nonempty : key ≠ []
  lower : key.map tolower = key
  noEq : ch '=' ∉ key
  start : ∀ c ∈ key.head?, c ≠ ch '#' ∧ c ≠ ch ';' ∧ c ≠ ch '['

structure Value (val : Bytes) : Prop extends Trimmed val where
  noComment : ch ';' ∉ val ∧ ch '#' ∉ val
  noQuote : ∀ c ∈ val.head?, c ≠ 34 ∧ c ≠ 39
  noSlash : val.getLast? ≠ some backslash

/-- The entries are sections without a value, and values of keys in these sections. -/
structure Dumpable (m : Bytes → Option (Option Bytes)) : Prop where
  sections : ∀ key val, m key = some val → ch ':' ∉ key → val = none ∧ SectionName key
  values : ∀ key val, m key = some val → ch ':' ∈ key → ∃ sect name value, key = sect ++ ch ':' :: name ∧ val = some value ∧
    ch ':' ∉ sect ∧ m sect = some none ∧ KeyName name ∧ Value value ∧ key.length ≤ ASCIILINESZ ∧
    (keyLine name value).length + 2 ≤ ASCIILINESZ

/-! ## Reading a line -/

theorem strstrip_eq {s : Bytes} (h : Trimmed s) : strstrip s = s := by
  have hdrop : s.dropWhile isspace = s := by
    cases s with
    | nil => rfl
    | cons c s => exact List.dropWhile_cons_of_neg (by rw [h.first c rfl]; exact Bool.false_ne_true)
  rw [strstrip, hdrop, List.rdropWhile_eq_self_iff]
  intro hne
  rw [h.last _ (List.getLast?_eq_some_getLast hne)]
  exact Bool.false_ne_true

theorem strlwc_eq {s : Bytes} (hlower : s.map tolower = s) (hshort : s.length ≤ ASCIILINESZ) : strlwc s = s := by
  rw [strlwc, List.take_of_length_le hshort, hlower]

theorem takeWhile_field {s : Bytes} {chars : Bytes} (hs : ∀ c ∈ s, c ∉ chars) (t : Bytes) (ht : ∀ c ∈ t.head?, c ∈ chars) :
    (s ++ t).takeWhile (fun c => chars.contains c != true) = s ∧ (s ++ t).dropWhile (fun c => chars.contains c != true) = t := by
  have hpos : ∀ c ∈ s, (chars.contains c != true) = true := by
    intro c hc
    simpa using hs c hc
  have htake : t.takeWhile (fun c => chars.contains c != true) = [] ∧ t.dropWhile (fun c => chars.contains c != true) = t := by
    cases t with
    | nil => exact ⟨rfl, rfl⟩
    | cons c t =>
      have hc : ¬(chars.contains c != true) = true := by simpa using ht c rfl
      exact ⟨List.takeWhile_cons_of_neg hc, List.dropWhile_cons_of_neg hc⟩
  rw [List.takeWhile_append_of_pos hpos, List.dropWhile_append_of_pos hpos, htake.1, htake.2, List.append_nil]
  exact ⟨rfl, rfl⟩

/-- A field up to one of some characters. -/
theorem sscanf_field {format : List Directive} {s chars : Bytes} (hs : ∀ c ∈ s, c ∉ chars) (hne : s ≠ []) (t : Bytes)
    (ht : ∀ c ∈ t.head?, c ∈ chars) : sscanf (.field true chars :: format) (s ++ t) = s :: sscanf format t := by
  obtain ⟨htake, hdrop⟩ := takeWhile_field hs t ht
  rw [sscanf, htake, hdrop, if_neg hne]

theorem readLine_section {st : Loading} {s : Bytes} (hs : SectionName s) :
    readLine st ([ch '['] ++ s ++ [ch ']']) = (st.dict.set s none).map fun dict => ⟨s, dict, 0⟩ := by
  have hstrip : ([ch '['] ++ s ++ [ch ']']).rdropWhile isspace = [ch '['] ++ s ++ [ch ']'] :=
    List.rdropWhile_concat_neg _ _ _ (by decide)
  have htrim : strstrip ([ch '['] ++ s ++ [ch ']']) = [ch '['] ++ s ++ [ch ']'] := by
    rw [strstrip, List.append_assoc, List.singleton_append, List.dropWhile_cons_of_neg (by decide), ← List.singleton_append,
      ← List.append_assoc, hstrip]
  have hscan : sscanf sectionFormat ([ch '['] ++ s ++ [ch ']']) = [s] := by
    have hfield : sscanf [.field true [ch ']']] (s ++ [ch ']']) = [s] := by
      rw [sscanf_field (fun c hc h => hs.closed (by rwa [← List.mem_singleton.mp h])) hs.nonempty _ (by simp), sscanf]
    rw [sectionFormat, List.append_assoc, List.singleton_append, sscanf, List.head?_cons, if_pos rfl, List.tail_cons, hfield]
  have hshort := hs.short
  have hline : iniparserLine ([ch '['] ++ s ++ [ch ']']) st.sect = .sect s := by
    rw [iniparserLine]
    dsimp only
    rw [htrim, if_neg (by simp), if_neg (by simp; decide), if_pos ⟨rfl, List.getLast?_concat⟩, hscan, List.headD_cons,
      strstrip_eq hs.toTrimmed, strlwc_eq hs.lower (by omega)]
  rw [readLine, hstrip, hline, Loading.line]

/-- What is behind the equality sign of a line that was written, the blanks at its end cut. -/
def written (val : Bytes) : Bytes := if val = [] then [] else ch ' ' :: val

section
variable {key val : Bytes} (hkey : KeyName key) (hval : Value val)

/-- The key with its blanks. -/
def widened (key : Bytes) : Bytes := key ++ List.replicate (30 - key.length) (ch ' ') ++ [ch ' ']

theorem widened_eq (key : Bytes) : widened key = key ++ List.replicate (30 - key.length + 1) (ch ' ') := by
  rw [widened, List.replicate_succ', List.append_assoc]

include hval in
theorem rdropWhile_keyLine (key : Bytes) : (keyLine key val).rdropWhile isspace = widened key ++ ch '=' :: written val := by
  have hsplit : keyLine key val = widened key ++ [ch '='] ++ [ch ' '] ++ val := by
    simp only [keyLine, widened, List.append_assoc, List.cons_append, List.nil_append]
  rw [hsplit, written]
  split
  · next hnil =>
    rw [hnil, List.append_nil, List.rdropWhile_concat_pos _ _ _ (by decide), List.rdropWhile_concat_neg _ _ _ (by decide)]
  · next hne =>
    obtain ⟨vs, c, rfl⟩ := (List.eq_nil_or_concat val).resolve_left hne
    have hc : isspace c = false := hval.last c (by rw [List.concat_eq_append, List.getLast?_concat]; rfl)
    rw [List.concat_eq_append, ← List.append_assoc, List.rdropWhile_concat_neg _ _ _ (by rw [hc]; exact Bool.false_ne_true)]
    simp only [List.append_assoc, List.cons_append, List.nil_append]

include hkey in
theorem sscanf_key (format : List Directive) (w : Bytes) :
    sscanf (keyFormat ++ format) (widened key ++ ch '=' :: w) = widened key :: sscanf format w := by
  have hno : ∀ c ∈ widened key, c ∉ [ch '='] := by
    intro c hc h
    rw [widened_eq, List.mem_append, List.mem_singleton.mp h] at hc
    obtain hc | hc := hc
    · exact hkey.noEq hc
    · exact absurd (List.eq_of_mem_replicate hc) (by decide)
  have hne : widened key ≠ [] := by rw [widened]; simp
  rw [keyFormat, List.cons_append, sscanf_field hno hne _ (by simp), List.cons_append, sscanf,
    List.dropWhile_cons_of_neg (by decide), List.cons_append, sscanf, List.head?_cons, if_pos rfl, List.tail_cons, List.nil_append]

include hval in
theorem dropWhile_written : (written val).dropWhile isspace = val := by
  rw [written]
  split
  · next hnil => rw [hnil]; rfl
  · next hne =>
    rw [List.dropWhile_cons_of_pos (by decide)]
    obtain ⟨c, vs, rfl⟩ := List.exists_cons_of_ne_nil hne
    exact List.dropWhile_cons_of_neg (by rw [hval.first c rfl]; exact Bool.false_ne_true)

include hkey in
theorem strstrip_widened : strstrip (widened key) = key := by
  obtain ⟨c, cs, rfl⟩ := List.exists_cons_of_ne_nil hkey.nonempty
  have hdrop : (widened (c :: cs)).dropWhile isspace = widened (c :: cs) :=
    List.dropWhile_cons_of_neg (by rw [hkey.first c rfl]; exact Bool.false_ne_true)
  have hblank : ∀ n, ((c :: cs) ++ List.replicate n (ch ' ')).rdropWhile isspace = c :: cs := by
    intro n
    induction n with
    | zero =>
      rw [List.replicate_zero, List.append_nil, List.rdropWhile_eq_self_iff]
      intro hne
      rw [hkey.last _ (List.getLast?_eq_some_getLast hne)]
      exact Bool.false_ne_true
    | succ n ih => rw [List.replicate_succ', ← List.append_assoc, List.rdropWhile_concat_pos _ _ _ (by decide), ih]
  rw [strstrip, hdrop, widened_eq, hblank]

include hkey hval in
/-- The patterns find the key and the value. -/
theorem iniparserLine_key (hshort : key.length ≤ ASCIILINESZ) (sect : Bytes) :
    iniparserLine (widened key ++ ch '=' :: written val) sect = .value key val := by
  obtain ⟨c, cs, hcs⟩ := List.exists_cons_of_ne_nil hkey.nonempty
  have hhead : (widened key ++ ch '=' :: written val).head? = some c := by rw [widened, hcs]; rfl
  have hcfirst : c ∈ key.head? := by rw [hcs]; rfl
  obtain ⟨hhash, hsemi, hbracket⟩ := hkey.start c hcfirst
  have hne : widened key ++ ch '=' :: written val ≠ [] := by simp
  have htrim : strstrip (widened key ++ ch '=' :: written val) = widened key ++ ch '=' :: written val := by
    have hdrop : (widened key ++ ch '=' :: written val).dropWhile isspace = widened key ++ ch '=' :: written val := by
      obtain ⟨rest, hrest⟩ : ∃ rest, widened key ++ ch '=' :: written val = c :: rest := by
        rw [widened, hcs]
        exact ⟨_, rfl⟩
      rw [hrest]
      exact List.dropWhile_cons_of_neg (by rw [hkey.first c hcfirst]; exact Bool.false_ne_true)
    rw [strstrip, hdrop, ← rdropWhile_keyLine hval, List.rdropWhile_idempotent]
  have hquoted : ∀ q : UInt8, (∀ c ∈ val.head?, c ≠ q) →
      sscanf (keyFormat ++ [.white, .literal q, .field true [q], .literal q]) (widened key ++ ch '=' :: written val) = [widened key] := by
    intro q hq
    rw [sscanf_key hkey, sscanf, dropWhile_written hval, sscanf, if_neg (fun h : val.head? = some q => hq q h rfl)]
  have hunquoted : sscanf unquoted (widened key ++ ch '=' :: written val) = widened key :: if val = [] then [] else [val] := by
    have hfield : sscanf [.field true [ch ';', ch '#']] val = if val = [] then [] else [val] := by
      split
      · next hnil => rw [hnil]; rfl
      · next hnil =>
        have hno : ∀ c ∈ val, c ∉ [ch ';', ch '#'] := by
          intro c hc h
          obtain rfl | rfl := List.mem_pair.mp h
          · exact hval.noComment.1 hc
          · exact hval.noComment.2 hc
        have happend := @sscanf_field [] val [ch ';', ch '#'] hno hnil [] (by simp)
        rw [List.append_nil] at happend
        exact happend
    rw [unquoted, sscanf_key hkey, sscanf, dropWhile_written hval, hfield]
  have hdouble := hquoted 34 fun c hc => (hval.noQuote c hc).1
  have hsingle := hquoted 39 fun c hc => (hval.noQuote c hc).2
  have hfirst : firstMatch [doubleQuoted, singleQuoted, unquoted] (widened key ++ ch '=' :: written val) =
      if val = [] then none else some [widened key, val] := by
    rw [firstMatch, List.map_cons, List.map_cons, List.map_cons, List.map_nil, doubleQuoted, hdouble, singleQuoted, hsingle, hunquoted]
    split <;> rfl
  rw [iniparserLine]
  dsimp only
  rw [htrim, if_neg hne, hhead, if_neg (by simp [hhash, hsemi]), if_neg (by simp [hbracket]), hfirst]
  split
  · next hnil =>
    subst hnil
    have hsecond : firstMatch [noValue, bareKey] (widened key ++ ch '=' :: written []) = some [widened key, [ch '=']] := by
      have hno : sscanf noValue (widened key ++ ch '=' :: written []) = [widened key] := by
        rw [noValue, sscanf_key hkey]
        rfl
      have hbare : sscanf bareKey (widened key ++ ch '=' :: written []) = [widened key, [ch '=']] := by
        have hnoEq : ∀ c ∈ widened key, c ∉ [ch '='] := by
          intro c hc h
          rw [widened_eq, List.mem_append, List.mem_singleton.mp h] at hc
          obtain hc | hc := hc
          · exact hkey.noEq hc
          · exact absurd (List.eq_of_mem_replicate hc) (by decide)
        rw [bareKey, sscanf_field hnoEq (by rw [widened]; simp) _ (by simp)]
        rfl
      rw [firstMatch, List.map_cons, List.map_cons, List.map_nil, hno, hbare]
      rfl
    rw [hsecond, Option.elim_none, Option.elim_some, List.getD_cons_zero, strstrip_widened hkey, strlwc_eq hkey.lower hshort]
  · next hne =>
    have hplain : ¬(val = [34, 34] ∨ val = [39, 39]) := by
      rintro (rfl | rfl)
      · exact (hval.noQuote 34 rfl).1 rfl
      · exact (hval.noQuote 39 rfl).2 rfl
    rw [Option.elim_some, List.getD_cons_zero, List.getD_cons_succ, List.getD_cons_zero, strstrip_widened hkey, strstrip_eq hval.toTrimmed,
      strlwc_eq hkey.lower hshort, if_neg hplain]

end

theorem readLine_key {st : Loading} {key val : Bytes} (hkey : KeyName key) (hval : Value val)
    (hshort : st.sect.length + 1 + key.length ≤ ASCIILINESZ) :
    readLine st (keyLine key val) = (st.dict.set (st.sect ++ ch ':' :: key) (some val)).map fun dict => ⟨st.sect, dict, 0⟩ := by
  rw [readLine, rdropWhile_keyLine hval, iniparserLine_key hkey hval (by omega), Loading.line, if_neg (by omega)]

/-! ## The lines of a dictionary -/

def Dictionary.sections (d : Dictionary) : List Bytes := d.keys.filter fun key => ch ':' ∉ key

/-- The names and values that are written under a section. -/
def Dictionary.entries (d : Dictionary) (secname : Bytes) : List (Bytes × Bytes) := d.slots.filterMap fun s => s.key.bind fun key =>
  if (secname ++ [ch ':']).isPrefixOf key then some (key.drop (secname.length + 1), s.val.getD []) else none

def sectionLines (d : Dictionary) (secname : Bytes) : List Bytes :=
  [] :: ([ch '['] ++ secname ++ [ch ']']) :: (d.entries secname).map fun e => keyLine e.1 e.2

theorem getnsec_eq (d : Dictionary) : getnsec d = d.sections.length := by
  rw [getnsec, Dictionary.sections, Dictionary.keys]
  induction d.slots with
  | nil => rfl
  | cons s slots ih =>
    rw [List.countP_cons, ih, List.filterMap_cons]
    cases hkey : s.key with
    | none => rfl
    | some key =>
      dsimp only
      rw [List.filter_cons]
      by_cases hcolon : ch ':' ∈ key <;> simp [hcolon]

theorem getsecnameFrom_eq (slots : List Slot) (foundsec n : ℕ) (h : foundsec ≤ n) :
    getsecnameFrom slots foundsec n = ((slots.filterMap Slot.key).filter fun key => ch ':' ∉ key)[n - foundsec]? := by
  induction slots generalizing foundsec with
  | nil => rfl
  | cons s slots ih =>
    rw [getsecnameFrom, List.filterMap_cons]
    cases hkey : s.key with
    | none => exact ih foundsec h
    | some key =>
      dsimp only [Option.elim_some]
      by_cases hcolon : ch ':' ∈ key
      · rw [if_pos hcolon, List.filter_cons_of_neg (by simpa using hcolon)]
        exact ih foundsec h
      · rw [if_neg hcolon, List.filter_cons_of_pos (by simpa using hcolon)]
        split
        · next hlt => rw [show n - foundsec = 0 by omega, List.getElem?_cons_zero]
        · next hle =>
          rw [ih (foundsec + 1) (by omega), show n - foundsec = n - (foundsec + 1) + 1 by omega, List.getElem?_cons_succ]

theorem mapM_range {α : Type} {f : ℕ → Option α} {l : List α} (h : ∀ (i : ℕ) (hi : i < l.length), f i = some l[i]) :
    (List.range l.length).mapM f = some l := by
  induction l generalizing f with
  | nil => rfl
  | cons a l ih =>
    have hhead : f 0 = some a := h 0 (Nat.succ_pos _)
    have htail : (List.range l.length).mapM (f ∘ Nat.succ) = some l := ih fun i hi => h (i + 1) (Nat.succ_lt_succ hi)
    rw [List.length_cons, List.range_succ_eq_map, List.mapM_cons, hhead, List.mapM_map, htail]
    rfl

theorem dumpKeys_eq (d : Dictionary) (secname : Bytes) :
    dumpKeys d secname = ((d.entries secname).map fun e => keyLine e.1 e.2).flatMap fun l => l ++ [newline] := by
  rw [dumpKeys, Dictionary.entries]
  induction d.slots with
  | nil => rfl
  | cons s slots ih =>
    rw [List.flatMap_cons, ih, List.filterMap_cons]
    cases hkey : s.key with
    | none => rfl
    | some key =>
      dsimp only [Option.elim_some, Option.bind_some]
      split <;> rfl

/-- What is written is a list of lines. -/
theorem dumpIni_eq {d : Dictionary} (hne : d.sections ≠ []) (hshort : ∀ s ∈ d.sections, s.length + 1 ≤ ASCIILINESZ) :
    dumpIni d = some ((d.sections.flatMap (sectionLines d) ++ [[]]).flatMap fun l => l ++ [newline]) := by
  have hparts : (List.range (getnsec d)).mapM (fun i => (getsecname d i).bind fun secname =>
      if ASCIILINESZ < secname.length + 1 then none
      else some ([newline, ch '['] ++ secname ++ [ch ']', newline] ++ dumpKeys d secname)) =
      some (d.sections.map fun s => (sectionLines d s).flatMap fun l => l ++ [newline]) := by
    have hlen : getnsec d = (d.sections.map fun s => (sectionLines d s).flatMap fun l => l ++ [newline]).length := by
      rw [List.length_map, getnsec_eq]
    rw [hlen]
    apply mapM_range
    intro i hi
    rw [List.length_map] at hi
    have hname : getsecname d i = some d.sections[i] := by
      rw [getsecname, getsecnameFrom_eq _ _ _ (Nat.zero_le i), Nat.sub_zero]
      exact List.getElem?_eq_getElem hi
    have hle := hshort _ (List.getElem_mem hi)
    rw [hname, Option.bind_some, if_neg (by omega), List.getElem_map, dumpKeys_eq, sectionLines, List.flatMap_cons, List.flatMap_cons]
    simp only [List.nil_append, List.append_assoc, List.cons_append]
  rw [dumpIni, getnsec_eq, if_neg (by rw [Nat.lt_one_iff, List.length_eq_zero_iff]; exact hne), ← getnsec_eq, hparts, Option.map_some,
    List.flatMap_append, List.flatMap_assoc, ← List.flatMap_def]
  rfl

/-! ## The round trip -/

theorem split_colon {s t a b : Bytes} (hs : ch ':' ∉ s) (ht : ch ':' ∉ t) (h : s ++ ch ':' :: a = t ++ ch ':' :: b) : s = t ∧ a = b := by
  have hfield : ∀ s : Bytes, ch ':' ∉ s → ∀ c ∈ s, c ∉ [ch ':'] := by
    intro s hs c hc h
    exact hs (by rwa [← List.mem_singleton.mp h])
  have hleft := (takeWhile_field (hfield s hs) (ch ':' :: a) (by simp)).1
  have hright := (takeWhile_field (hfield t ht) (ch ':' :: b) (by simp)).1
  rw [h, hright] at hleft
  obtain rfl := hleft
  exact ⟨rfl, (List.cons.inj (List.append_cancel_left h)).2⟩

/-- A loading that has stored nothing but entries of `m`. -/
structure Loads (m : Bytes → Option (Option Bytes)) (st : Loading) : Prop where
  errs : st.errs = 0
  wf : st.dict.Wf
  below : ∀ key val, st.dict.map key = some val → m key = some val

/-- One state has stored at least what the other has. -/
def Loading.Before (st st' : Loading) : Prop := ∀ key, (st.dict.map key).isSome → (st'.dict.map key).isSome

theorem set_loads {m : Bytes → Option (Option Bytes)} {st : Loading} (h : Loads m st) {key : Bytes} {val : Option Bytes}
    (hm : m key = some val) (sect : Bytes) :
    ∃ dict, st.dict.set key val = some dict ∧ Loads m ⟨sect, dict, 0⟩ ∧ st.Before ⟨sect, dict, 0⟩ ∧ (dict.map key).isSome := by
  obtain ⟨dict, hdict, hwf, hmap⟩ := Dictionary.set_spec h.wf key val
  refine ⟨dict, hdict, ⟨rfl, hwf, ?_⟩, ?_, ?_⟩
  · intro k v hv
    rw [hmap] at hv
    obtain rfl | hk := eq_or_ne k key
    · rw [Function.update_self] at hv
      rw [hm, hv]
    · rw [Function.update_of_ne hk] at hv
      exact h.below k v hv
  · intro k hk
    show (dict.map k).isSome
    rw [hmap]
    obtain rfl | hne := eq_or_ne k key
    · rw [Function.update_self]
      rfl
    · rwa [Function.update_of_ne hne]
  · rw [hmap, Function.update_self]
    rfl

section
variable {m : Bytes → Option (Option Bytes)} {d : Dictionary}

/-- An entry that can be read back. -/
structure Entry (m : Bytes → Option (Option Bytes)) (sect : Bytes) (e : Bytes × Bytes) : Prop where
  stored : m (sect ++ ch ':' :: e.1) = some (some e.2)
  name : KeyName e.1
  value : Value e.2
  fits : sect.length + 1 + e.1.length ≤ ASCIILINESZ

theorem foldlM_entries {st : Loading} (h : Loads m st) {es : List (Bytes × Bytes)} (hes : ∀ e ∈ es, Entry m st.sect e) :
    ∃ st', (es.map fun e => keyLine e.1 e.2).foldlM readLine st = some st' ∧ Loads m st' ∧ st.Before st' ∧
      ∀ e ∈ es, (st'.dict.map (st.sect ++ ch ':' :: e.1)).isSome := by
  induction es generalizing st with
  | nil => exact ⟨st, rfl, h, fun _ hk => hk, fun _ he => absurd he List.not_mem_nil⟩
  | cons e es ih =>
    rw [List.forall_mem_cons] at hes
    obtain ⟨he, hes⟩ := hes
    obtain ⟨dict, hdict, hloads, hbefore, hsome⟩ := set_loads h he.stored st.sect
    obtain ⟨st', hst', hloads', hbefore', hall⟩ := ih hloads hes
    refine ⟨st', ?_, hloads', fun k hk => hbefore' k (hbefore k hk), ?_⟩
    · rw [List.map_cons, List.foldlM_cons, readLine_key he.name he.value he.fits, hdict]
      exact hst'
    · rw [List.forall_mem_cons]
      exact ⟨hbefore' _ hsome, hall⟩

theorem foldlM_section {st : Loading} (h : Loads m st) {s : Bytes} (hs : m s = some none) (hname : SectionName s)
    (hes : ∀ e ∈ d.entries s, Entry m s e) :
    ∃ st', (sectionLines d s).foldlM readLine st = some st' ∧ Loads m st' ∧ st.Before st' ∧ (st'.dict.map s).isSome ∧
      ∀ e ∈ d.entries s, (st'.dict.map (s ++ ch ':' :: e.1)).isSome := by
  obtain ⟨dict, hdict, hloads, hbefore, hsome⟩ := set_loads h hs s
  obtain ⟨st', hst', hloads', hbefore', hall⟩ := foldlM_entries hloads hes
  refine ⟨st', ?_, hloads', fun k hk => hbefore' k (hbefore k hk), hbefore' s hsome, hall⟩
  have hempty : readLine st [] = some st := rfl
  rw [sectionLines, List.foldlM_cons, hempty, Option.bind_eq_bind, Option.bind_some, List.foldlM_cons, readLine_section hname, hdict]
  exact hst'

theorem foldlM_sections {st : Loading} (h : Loads m st) {ss : List Bytes} (hss : ∀ s ∈ ss, m s = some none ∧ SectionName s)
    (hes : ∀ s ∈ ss, ∀ e ∈ d.entries s, Entry m s e) :
    ∃ st', (ss.flatMap (sectionLines d)).foldlM readLine st = some st' ∧ Loads m st' ∧ st.Before st' ∧
      ∀ s ∈ ss, (st'.dict.map s).isSome ∧ ∀ e ∈ d.entries s, (st'.dict.map (s ++ ch ':' :: e.1)).isSome := by
  induction ss generalizing st with
  | nil => exact ⟨st, rfl, h, fun _ hk => hk, fun _ hs => absurd hs List.not_mem_nil⟩
  | cons s ss ih =>
    rw [List.forall_mem_cons] at hss hes
    obtain ⟨mid, hmid, hloads, hbefore, hsect, hkeys⟩ := foldlM_section h hss.1.1 hss.1.2 hes.1
    obtain ⟨st', hst', hloads', hbefore', hall⟩ := ih hloads hss.2 hes.2
    refine ⟨st', ?_, hloads', fun k hk => hbefore' k (hbefore k hk), ?_⟩
    · rw [List.flatMap_cons, List.foldlM_append, hmid]
      exact hst'
    · rw [List.forall_mem_cons]
      exact ⟨⟨hbefore' _ hsect, fun e he => hbefore' _ (hkeys e he)⟩, hall⟩

end

section
variable {d : Dictionary} (hwf : d.Wf) (h : Dumpable d.map)

include hwf h

theorem entry_of_mem {s : Bytes} (hs : ch ':' ∉ s) {e : Bytes × Bytes} (he : e ∈ d.entries s) :
    Entry d.map s e ∧ (keyLine e.1 e.2).length + 2 ≤ ASCIILINESZ := by
  obtain ⟨slot, hslot, hbind⟩ := List.mem_filterMap.mp he
  obtain ⟨key, hkey, hif⟩ := Option.bind_eq_some_iff.mp hbind
  split at hif
  · next hupto =>
    obtain ⟨rest, rfl⟩ := List.isPrefixOf_iff_prefix.mp hupto
    obtain rfl := Option.some.inj hif
    have hmap : d.map (s ++ [ch ':'] ++ rest) = some slot.val := Slots.lookup_of_mem hwf.once hslot hkey
    have hdrop : (s ++ [ch ':'] ++ rest).drop (s.length + 1) = rest := List.drop_left' (by simp)
    rw [hdrop]
    rw [List.append_assoc, List.singleton_append] at hmap
    obtain ⟨sect, name, value, heq, hvalue, hsect, -, hname, hval, hlen, hline⟩ := h.values _ _ hmap (by simp)
    obtain ⟨rfl, rfl⟩ := split_colon hs hsect heq
    rw [hvalue] at hmap ⊢
    rw [List.length_append, List.length_cons] at hlen
    exact ⟨⟨hmap, hname, hval, by dsimp only; omega⟩, hline⟩
  · cases hif

theorem section_of_mem {s : Bytes} (hs : s ∈ d.sections) : d.map s = some none ∧ SectionName s ∧ ch ':' ∉ s := by
  obtain ⟨hkey, hcolon⟩ := List.mem_filter.mp hs
  have hcolon : ch ':' ∉ s := by simpa using hcolon
  obtain ⟨v, hv⟩ := Option.isSome_iff_exists.mp (((Dictionary.keys_spec hwf).2.2 s).mp hkey)
  obtain ⟨rfl, hname⟩ := h.sections s v hv hcolon
  exact ⟨hv, hname, hcolon⟩

theorem plainLine_of_mem {l : Bytes} (hl : l ∈ d.sections.flatMap (sectionLines d) ++ [[]]) : PlainLine l := by
  have hempty : PlainLine [] := ⟨List.not_mem_nil, List.not_mem_nil, by decide, fun hne => absurd rfl hne, by decide⟩
  obtain hl | hl := List.mem_append.mp hl
  · obtain ⟨s, hs, hl⟩ := List.mem_flatMap.mp hl
    obtain ⟨-, hname, hcolon⟩ := section_of_mem hwf h hs
    obtain rfl | hl := List.mem_cons.mp hl
    · exact hempty
    obtain rfl | hl := List.mem_cons.mp hl
    · have hstrip : ([ch '['] ++ s ++ [ch ']']).rdropWhile isspace = [ch '['] ++ s ++ [ch ']'] :=
        List.rdropWhile_concat_neg _ _ _ (by decide)
      have hshort := hname.short
      refine ⟨?_, ?_, ?_, fun _ => ?_, ?_⟩
      · rw [List.mem_append, List.mem_append]
        rintro ((hc | hc) | hc)
        · exact absurd hc (by decide)
        · exact hname.single hc
        · exact absurd hc (by decide)
      · rw [List.mem_append, List.mem_append]
        rintro ((hc | hc) | hc)
        · exact absurd hc (by decide)
        · exact hname.string hc
        · exact absurd hc (by decide)
      · rw [List.length_append, List.length_append, List.length_singleton, List.length_singleton]
        omega
      · rw [hstrip]
        simp
      · rw [hstrip, List.getLast?_concat]
        decide
    · obtain ⟨e, he, rfl⟩ := List.mem_map.mp hl
      obtain ⟨hentry, hline⟩ := entry_of_mem hwf h hcolon he
      have hstrip := rdropWhile_keyLine hentry.value e.1
      refine ⟨?_, ?_, hline, fun _ => ?_, ?_⟩
      · rw [keyLine]
        simp only [List.mem_append, not_or]
        refine ⟨⟨⟨hentry.name.single, fun hc => ?_⟩, by decide⟩, hentry.value.single⟩
        exact absurd (List.eq_of_mem_replicate hc) (by decide)
      · rw [keyLine]
        simp only [List.mem_append, not_or]
        refine ⟨⟨⟨hentry.name.string, fun hc => ?_⟩, by decide⟩, hentry.value.string⟩
        exact absurd (List.eq_of_mem_replicate hc) (by decide)
      · rw [hstrip]
        simp
      · rw [hstrip, List.getLast?_append, List.getLast?_cons, written]
        split
        · exact fun heq => absurd (Option.some.inj heq) (by decide)
        · next hne =>
          obtain ⟨vs, c, hc⟩ := (List.eq_nil_or_concat e.2).resolve_left hne
          have hslash := hentry.value.noSlash
          rw [hc, List.concat_eq_append, List.getLast?_concat] at hslash
          rw [hc, List.concat_eq_append, ← List.cons_append, List.getLast?_concat]
          exact hslash
  · rw [List.mem_singleton.mp hl]
    exact hempty

end

/-- A dictionary that is written and read is the same dictionary. -/
theorem load_dumpIni (d : Dictionary) (hwf : d.Wf) (h : Dumpable d.map) :
    ∃ text d', dumpIni d = some text ∧ load text = some (some d') ∧ d'.map = d.map := by
  by_cases hne : d.sections = []
  · have hkeys : ∀ key, d.map key = none := by
      intro key
      by_contra hsome
      obtain ⟨v, hv⟩ := Option.ne_none_iff_exists'.mp hsome
      have hsection : ∀ s v, d.map s = some v → ch ':' ∈ s := by
        intro s v hs
        by_contra hcolon
        have hmem : s ∈ d.sections := by
          refine List.mem_filter.mpr ⟨((Dictionary.keys_spec hwf).2.2 s).mpr (by rw [hs]; rfl), by simpa using hcolon⟩
        rw [hne] at hmem
        cases hmem
      obtain ⟨sect, name, value, -, -, hsect, hmap, -⟩ := h.values key v hv (hsection key v hv)
      exact hsect (hsection sect none hmap)
    have hdump : dumpIni d = some [] := by
      have hmapM : d.slots.mapM (fun (s : Slot) => s.key.elim (some []) fun key =>
          s.val.map fun val => key ++ [ch ' ', ch '=', ch ' '] ++ val ++ [newline]) = some (d.slots.map fun _ => []) := by
        have hfree : ∀ s ∈ d.slots, s.key = none := by
          intro s hs
          by_contra hsome
          obtain ⟨key, hkey⟩ := Option.ne_none_iff_exists'.mp hsome
          have hlookup : d.map key = some s.val := Slots.lookup_of_mem hwf.once hs hkey
          rw [hkeys key] at hlookup
          cases hlookup
        generalize d.slots = slots at hfree
        induction slots with
        | nil => rfl
        | cons s slots ih =>
          rw [List.forall_mem_cons] at hfree
          rw [List.mapM_cons, hfree.1, ih hfree.2]
          rfl
      rw [dumpIni, getnsec_eq, hne, List.length_nil, if_pos Nat.one_pos, hmapM, Option.map_some, ← List.flatMap_def]
      simp
    refine ⟨[], .new 0, hdump, ?_, ?_⟩
    · rw [load, loadLoop, dif_pos rfl]
      rfl
    · rw [Dictionary.map_new]
      exact (funext hkeys).symm
  · have hsections : ∀ s ∈ d.sections, d.map s = some none ∧ SectionName s := fun s hs =>
      ⟨(section_of_mem hwf h hs).1, (section_of_mem hwf h hs).2.1⟩
    have hentries : ∀ s ∈ d.sections, ∀ e ∈ d.entries s, Entry d.map s e := fun s hs e he =>
      (entry_of_mem hwf h (section_of_mem hwf h hs).2.2 he).1
    have hstart : Loads d.map ⟨[], .new 0, 0⟩ := by
      refine ⟨rfl, Dictionary.wf_new 0, fun key val hval => ?_⟩
      rw [Dictionary.map_new] at hval
      cases hval
    obtain ⟨st, hst, hloads, -, hall⟩ := foldlM_sections hstart hsections hentries
    refine ⟨_, st.dict, dumpIni_eq hne ?_, ?_, ?_⟩
    · intro s hs
      have := (hsections s hs).2.short
      omega
    · have hempty : readLine st [] = some st := rfl
      rw [load, loadLoop_lines (fun l hl => plainLine_of_mem hwf h hl), List.foldlM_append, hst, Option.bind_eq_bind, Option.bind_some,
        List.foldlM_cons, hempty]
      show some st.result = _
      rw [Loading.result, if_pos hloads.errs]
    · funext key
      cases hkey : d.map key with
      | none =>
        cases hst' : st.dict.map key with
        | none => rfl
        | some v => rw [← hkey, hloads.below key v hst']
      | some v =>
        have hmem : key ∈ d.keys := ((Dictionary.keys_spec hwf).2.2 key).mpr (by rw [hkey]; rfl)
        have hsome : (st.dict.map key).isSome := by
          by_cases hcolon : ch ':' ∈ key
          · obtain ⟨sect, name, value, rfl, rfl, hsect, hmap, -⟩ := h.values key v hkey hcolon
            have hsection : sect ∈ d.sections :=
              List.mem_filter.mpr ⟨((Dictionary.keys_spec hwf).2.2 sect).mpr (by rw [hmap]; rfl), by simpa using hsect⟩
            obtain ⟨slot, hslot, hslotkey, hslotval⟩ := (Slots.lookup_eq_some hwf.once).mp hkey
            have hentry : (name, value) ∈ d.entries sect := by
              refine List.mem_filterMap.mpr ⟨slot, hslot, ?_⟩
              have hupto : (sect ++ [ch ':']).isPrefixOf (sect ++ ch ':' :: name) :=
                List.isPrefixOf_iff_prefix.mpr ⟨name, by simp⟩
              have hdrop : (sect ++ ch ':' :: name).drop (sect.length + 1) = name := by simp
              rw [hslotkey, Option.bind_some, if_pos hupto, hdrop, hslotval, Option.getD_some]
            exact (hall sect hsection).2 (name, value) hentry
          · exact (hall key (List.mem_filter.mpr ⟨hmem, by simpa using hcolon⟩)).1
        obtain ⟨v', hv'⟩ := Option.isSome_iff_exists.mp hsome
        rw [hv', ← hloads.below key v' hv', hkey]

theorem trimmed_singleton {c : UInt8} (hspace : isspace c = false) (hzero : (0 : UInt8) ∉ [c]) (hline : newline ∉ [c]) : Trimmed [c] where
  string := hzero
  first d hd := by
    obtain rfl := Option.some.inj hd
    exact hspace
  last d hd := by
    obtain rfl := Option.some.inj hd
    exact hspace
  single := hline

/-- One section with one value. -/
theorem load_dumpIni_entry : ∃ d : Dictionary, d.map [ch 'a', ch ':', ch 'b'] = some (some [ch 'c']) ∧
    ∃ text d', dumpIni d = some text ∧ load text = some (some d') ∧ d'.map = d.map := by
  obtain ⟨dict, -, hdict, hsection⟩ := Dictionary.set_spec (Dictionary.wf_new 0) [ch 'a'] none
  obtain ⟨d, -, hwf, hmap⟩ := Dictionary.set_spec hdict [ch 'a', ch ':', ch 'b'] (some [ch 'c'])
  rw [hsection, Dictionary.map_new] at hmap
  have hvalue : d.map [ch 'a', ch ':', ch 'b'] = some (some [ch 'c']) := by
    rw [hmap, Function.update_self]
  have hsect : d.map [ch 'a'] = some none := by
    rw [hmap]
    decide
  have hall : ∀ key val, d.map key = some val → key = [ch 'a', ch ':', ch 'b'] ∧ val = some [ch 'c'] ∨ key = [ch 'a'] ∧ val = none := by
    intro key val hval
    by_cases hb : key = [ch 'a', ch ':', ch 'b']
    · rw [hb, hvalue] at hval
      exact Or.inl ⟨hb, (Option.some.inj hval).symm⟩
    · by_cases ha : key = [ch 'a']
      · rw [ha, hsect] at hval
        exact Or.inr ⟨ha, (Option.some.inj hval).symm⟩
      · have hnone : d.map key = none := by
          rw [hmap, Function.update_of_ne hb, Function.update_of_ne ha]
        rw [hnone] at hval
        cases hval
  refine ⟨d, hvalue, load_dumpIni d hwf ⟨fun key val hval hcolon => ?_, fun key val hval hcolon => ?_⟩⟩
  · obtain ⟨rfl, rfl⟩ | ⟨rfl, rfl⟩ := hall key val hval
    · exact absurd (by decide) hcolon
    · exact ⟨rfl, ⟨trimmed_singleton rfl (by decide) (by decide), by decide, by decide, by decide, by decide⟩⟩
  · obtain ⟨rfl, rfl⟩ | ⟨rfl, rfl⟩ := hall key val hval
    · refine ⟨[ch 'a'], [ch 'b'], [ch 'c'], rfl, rfl, by decide, hsect, ?_, ?_, by decide, by decide⟩
      · refine ⟨trimmed_singleton rfl (by decide) (by decide), by decide, by decide, by decide, fun c hc => ?_⟩
        obtain rfl := Option.some.inj hc
        decide
      · refine ⟨trimmed_singleton rfl (by decide) (by decide), by decide, fun c hc => ?_, by decide⟩
        obtain rfl := Option.some.inj hc
        decide
    · exact absurd hcolon (by decide)

end Bohrium.Iniparser
