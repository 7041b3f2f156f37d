import Mathlib.Data.List.TakeWhile
import Mathlib.Tactic.Common

/-! # Templates

`ve/cpu/codegen/plaid.cpp`: `Plaid::fill` replaces the placeholders of a template. The loop scans the
text it is editing; what it edits is logged. Positions are natural numbers, and a text is a list of
characters. -/
namespace Bohrium.Plaid
set_option autoImplicit false

/-! ## The loop -/

inductive State
  | none | curlyOpen | curlyClose | placeOpen | placeClose | place
  deriving DecidableEq, Repr

/-- The first `switch`. `PLACE_CLOSE` falls through to the default case; the error messages are left
out, they do not change the state. -/
def State.next : State → Char → State
  | .curlyOpen, token => if token = '{' then .placeOpen else .none
  | .placeOpen, _ => .place
  | .curlyClose, token => if token = '}' then .placeClose else .none
  | .place, token => if token = '}' then .curlyClose else .place
  | .placeClose, token | .none, token => if token = '{' then .curlyOpen else .none

/-- `indentlevel`: how far `index` is from the last line break. -/
def indentlevel (text : List Char) (index : ℕ) : ℕ :=
  match (text.take (index + 1)).reverse.findIdx? (· = '\n') with
  | some back => back - 1
  | none => index

/-- The loop of `replace` over the subject. -/
def indented (level : ℕ) (subject : List Char) : List Char :=
  subject.flatMap fun c => if c = '\n' then '\n' :: List.replicate level ' ' else [c]

/-- `replace`. -/
def replace (tmpl : List Char) (begin count : ℕ) (subject : List Char) : List Char :=
  tmpl.take begin ++ indented (indentlevel tmpl begin) subject ++ tmpl.drop (begin + count)

/-- A call of `replace`. -/
structure Edit where
  begin : ℕ
  count : ℕ
  name : List Char
  deriving DecidableEq, Repr

/-- The variables of the loop. -/
structure Scanner where
  tmpl : List Char
  idx : ℕ := 0
  state : State := .none
  place : List Char := []
  placeOpen : ℕ := 0
  edits : List Edit := []
  deriving DecidableEq, Repr

/-- One turn of the loop with the token at `idx`. After a replacement `idx` is `place_open - 1`, and
`++idx` follows. -/
def Scanner.turn (subjects : List Char → List Char) (s : Scanner) (token : Char) : Scanner :=
  let state := s.state.next token
  match state with
  | .placeOpen => { s with state := state, idx := s.idx + 1, placeOpen := s.idx - 1, place := [] }
  | .place => { s with state := state, idx := s.idx + 1, place := s.place ++ [token] }
  | .placeClose =>
    { s with
      state := state
      idx := s.placeOpen
      tmpl := replace s.tmpl s.placeOpen (s.idx - s.placeOpen + 1) (subjects s.place)
      edits := s.edits ++ [⟨s.placeOpen, s.idx - s.placeOpen + 1, s.place⟩] }
  | _ => { s with state := state, idx := s.idx + 1 }

/-- The loop, for at most `fuel` turns. -/
def Scanner.run (subjects : List Char → List Char) : ℕ → Scanner → Option (List Char × List Edit)
  | 0, _ => none
  | fuel + 1, s =>
    match s.tmpl[s.idx]? with
    | none => some (s.tmpl, s.edits)
    | some token => Scanner.run subjects fuel (s.turn subjects token)

/-- `Plaid::fill` of a template; a name that `subjects` has not is the empty text. -/
def fill (subjects : List Char → List Char) (fuel : ℕ) (tmpl : List Char) : Option (List Char × List Edit) :=
  Scanner.run subjects fuel { tmpl := tmpl }

/-! ## What filling means -/

def isBrace (c : Char) : Bool := c = '{' || c = '}'

/-- The name, when a placeholder stands at the beginning of the text: two braces, a name without
braces, two braces. -/
def placeholder? : List Char → Option (List Char)
  | '{' :: '{' :: text =>
    let name := text.takeWhile fun c => !isBrace c
    match name, text.dropWhile fun c => !isBrace c with
    | _ :: _, '}' :: '}' :: _ => some name
    | _, _ => none
  | _ => none

/-- The column at the end of a text. -/
def column (text : List Char) : ℕ := (text.reverse.takeWhile (· ≠ '\n')).length

/-- The text that comes for a placeholder behind `done`. -/
def insertion (subjects : List Char → List Char) (done name : List Char) : List Char :=
  indented (column done) (subjects name)

/-- The template with every placeholder replaced, in one pass, and the replacements: `done` is the part
that is finished, `skip` characters of a placeholder are still to be passed over. -/
def expand (subjects : List Char → List Char) : ℕ → List Char → List Char → List Char × List Edit
  | _, done, [] => (done, [])
  | skip + 1, done, _ :: rest => expand subjects skip done rest
  | 0, done, c :: rest =>
    match placeholder? (c :: rest) with
    | some name =>
      let r := expand subjects (name.length + 3) (done ++ insertion subjects done name) rest
      (r.1, ⟨done.length, name.length + 4, name⟩ :: r.2)
    | none => expand subjects 0 (done ++ [c]) rest

/-- `fill` returns the expanded template, and the only text it has replaced are the placeholders of the
template. -/
def SinglePass (subjects : List Char → List Char) (tmpl : List Char) : Prop :=
  ∃ fuel, fill subjects fuel tmpl = some (expand subjects 0 [] tmpl)

/-- The state machine over a text. -/
def scan (text : List Char) : State := text.foldl State.next .none

/-- Over the expanded template the state machine completes no placeholder, and it is outside of all
braces wherever a placeholder of the template was. -/
def Undisturbed (out : List Char) (edits : List Edit) : Prop :=
  (∀ n, scan (out.take n) ≠ .placeClose) ∧ ∀ e ∈ edits, scan (out.take e.begin) = .none

/-! ## Placeholders and expansion -/

theorem placeholder?_some {text name : List Char} (h : placeholder? text = some name) :
    ∃ c cs rest, name = c :: cs ∧ text = '{' :: '{' :: (name ++ '}' :: '}' :: rest) ∧
      ∀ c ∈ name, isBrace c = false := by
  unfold placeholder? at h
  split at h
  · rename_i text
    dsimp only at h
    split at h
    · rename_i c cs rest hname hrest
      obtain rfl := Option.some.inj h
      refine ⟨c, cs, rest, hname, ?_, fun c hc => ?_⟩
      · rw [← hrest, List.takeWhile_append_dropWhile]
      · simpa using List.mem_takeWhile_imp hc
    · cases h
  · cases h

theorem expand_skip (subjects : List Char → List Char) (skip : ℕ) (done rest : List Char) :
    expand subjects skip done rest = expand subjects 0 done (rest.drop skip) := by
  induction rest generalizing skip with
  | nil => simp [expand]
  | cons c rest ih =>
    cases skip with
    | zero => rfl
    | succ skip =>
      rw [expand, ih, List.drop_succ_cons]

theorem expand_place {subjects : List Char → List Char} {done name rest : List Char}
    (h : placeholder? ('{' :: '{' :: (name ++ '}' :: '}' :: rest)) = some name) :
    expand subjects 0 done ('{' :: '{' :: (name ++ '}' :: '}' :: rest)) =
      ((expand subjects 0 (done ++ insertion subjects done name) rest).1,
        ⟨done.length, name.length + 4, name⟩ :: (expand subjects 0 (done ++ insertion subjects done name) rest).2) := by
  have hdrop : ('{' :: (name ++ '}' :: '}' :: rest)).drop (name.length + 3) = rest := by
    rw [List.drop_succ_cons, List.drop_append, List.drop_eq_nil_of_le (by omega)]
    simp
  rw [expand, h]
  simp only [expand_skip subjects (name.length + 3), hdrop]

theorem expand_char {subjects : List Char → List Char} {done rest : List Char} {c : Char}
    (h : placeholder? (c :: rest) = none) :
    expand subjects 0 done (c :: rest) = expand subjects 0 (done ++ [c]) rest := by
  rw [expand, h]

/-- The finished part stays, and the replacements come behind it. -/
theorem expand_behind (subjects : List Char → List Char) (rest : List Char) : ∀ skip done,
    done <+: (expand subjects skip done rest).1 ∧ ∀ e ∈ (expand subjects skip done rest).2, done.length ≤ e.begin := by
  induction rest with
  | nil => simp [expand]
  | cons c rest ih =>
    intro skip done
    cases skip with
    | succ skip => exact ih skip done
    | zero =>
      cases hp : placeholder? (c :: rest) with
      | none =>
        rw [expand_char hp]
        obtain ⟨hpre, hedits⟩ := ih 0 (done ++ [c])
        refine ⟨(List.prefix_append done [c]).trans hpre, fun e he => ?_⟩
        have := hedits e he
        rw [List.length_append] at this
        omega
      | some name =>
        rw [expand, hp]
        obtain ⟨hpre, hedits⟩ := ih (name.length + 3) (done ++ insertion subjects done name)
        refine ⟨(List.prefix_append done _).trans hpre, fun e he => ?_⟩
        obtain rfl | he := List.mem_cons.mp he
        · exact Nat.le_refl _
        · have := hedits e he
          rw [List.length_append] at this
          omega

theorem indentlevel_append (done rest : List Char) {c : Char} (hc : c ≠ '\n') :
    indentlevel (done ++ c :: rest) done.length = column done := by
  have hback : ∀ l : List Char, (match l.findIdx? (· = '\n') with | some back => back | none => l.length) =
      (l.takeWhile (· ≠ '\n')).length := by
    intro l
    induction l with
    | nil => rfl
    | cons d l ih =>
      by_cases hd : d = '\n'
      · simp [List.findIdx?_cons, hd]
      · rw [List.findIdx?_cons, List.takeWhile_cons_of_pos (by simpa using hd), List.length_cons, List.length_cons,
          ← ih]
        simp only [hd, decide_false]
        cases l.findIdx? (fun x => decide (x = '\n')) <;> simp
  have htake : (done ++ c :: rest).take (done.length + 1) = done ++ [c] := by
    rw [List.take_append, List.take_of_length_le (by omega)]
    simp
  rw [indentlevel, htake, List.reverse_append, List.reverse_singleton, List.singleton_append, List.findIdx?_cons]
  simp only [hc, decide_false, column, ← hback]
  cases done.reverse.findIdx? (fun x => decide (x = '\n')) <;> simp

theorem take_of_leading {l m : List Char} (h : l <+: m) : m.take l.length = l := (List.prefix_iff_eq_take.mp h).symm

theorem take_snoc (done seg : List Char) (c : Char) : (done ++ c :: seg).take (done.length + 1) = done ++ [c] := by
  have hpre : done ++ [c] <+: done ++ c :: seg := ⟨seg, by simp⟩
  simpa using take_of_leading hpre

/-! ## The loop over a text -/

/-- After a replacement the machine goes on as from the start. -/
def State.settle : State → State
  | .placeClose => .none
  | q => q

theorem State.next_settle (q : State) (c : Char) : q.settle.next c = q.next c := by
  cases q <;> rfl

theorem State.settle_next {q : State} {c : Char} (h : q.next c ≠ .placeClose) : (q.next c).settle = q.next c := by
  cases hq : q.next c <;> first | rfl | exact absurd hq h

theorem State.begun_of_next {q : State} {c : Char} (h : q.next c = .place ∨ q.next c = .curlyClose) :
    q = .placeOpen ∨ q = .place := by
  cases q with
  | placeOpen => exact Or.inl rfl
  | place => exact Or.inr rfl
  | none => by_cases hc : c = '{' <;> simp [State.next, hc] at h
  | curlyOpen => by_cases hc : c = '{' <;> simp [State.next, hc] at h
  | curlyClose => by_cases hc : c = '}' <;> simp [State.next, hc] at h
  | placeClose => by_cases hc : c = '{' <;> simp [State.next, hc] at h

theorem State.close_of_next {q : State} {c : Char} (h : q.next c = .placeClose) : q = .curlyClose := by
  cases q with
  | curlyClose => rfl
  | placeOpen => cases h
  | place => by_cases hc : c = '}' <;> simp [State.next, hc] at h
  | none => by_cases hc : c = '{' <;> simp [State.next, hc] at h
  | curlyOpen => by_cases hc : c = '{' <;> simp [State.next, hc] at h
  | placeClose => by_cases hc : c = '{' <;> simp [State.next, hc] at h

theorem State.open_of_next {q : State} {c : Char} (h : q.next c = .placeOpen) : q = .curlyOpen := by
  cases q with
  | curlyOpen => rfl
  | placeOpen => cases h
  | place => by_cases hc : c = '}' <;> simp [State.next, hc] at h
  | none => by_cases hc : c = '{' <;> simp [State.next, hc] at h
  | curlyClose => by_cases hc : c = '}' <;> simp [State.next, hc] at h
  | placeClose => by_cases hc : c = '{' <;> simp [State.next, hc] at h

theorem scan_append (done : List Char) (c : Char) : scan (done ++ [c]) = (scan done).next c := by
  simp [scan]

/-- The loop stands behind `done`, which the machine has read from the start. -/
structure At (s : Scanner) (done rest : List Char) : Prop where
  tmpl : s.tmpl = done ++ rest
  idx : s.idx = done.length
  state : s.state.settle = scan done
  opened : s.state = .curlyOpen → 1 ≤ done.length
  begun : s.state = .placeOpen ∨ s.state = .place ∨ s.state = .curlyClose → s.placeOpen < done.length

section

variable {subjects : List Char → List Char} {s : Scanner} {done rest : List Char} {c : Char}

theorem At.token (h : At s done (c :: rest)) : s.tmpl[s.idx]? = some c := by
  rw [h.tmpl, h.idx, List.getElem?_append_right (Nat.le_refl _)]
  simp

theorem At.run_succ (h : At s done (c :: rest)) (fuel : ℕ) :
    s.run subjects (fuel + 1) = (s.turn subjects c).run subjects fuel := by
  rw [Scanner.run, h.token]

theorem At.run_nil (h : At s done []) (fuel : ℕ) : s.run subjects (fuel + 1) = some (done, s.edits) := by
  have hend : s.tmpl[s.idx]? = none := by
    rw [h.tmpl, h.idx]
    simp
  rw [Scanner.run, hend, h.tmpl, List.append_nil]

/-- A turn that replaces nothing. -/
theorem At.turn (h : At s done (c :: rest)) (hc : s.state.next c ≠ .placeClose) :
    At (s.turn subjects c) (done ++ [c]) rest ∧ (s.turn subjects c).edits = s.edits := by
  have hscan : (s.state.next c).settle = scan (done ++ [c]) := by
    rw [scan_append, ← h.state, State.next_settle, State.settle_next hc]
  have htmpl : s.tmpl = done ++ [c] ++ rest := by simp [h.tmpl]
  have hlen : (done ++ [c]).length = done.length + 1 := by simp
  have hidx := h.idx
  cases hq : s.state.next c with
  | placeClose => exact absurd hq hc
  | none =>
    rw [hq] at hscan
    simp only [Scanner.turn, hq]
    exact ⟨⟨htmpl, by simp [hidx], hscan, by simp, by simp⟩, trivial⟩
  | curlyOpen =>
    rw [hq] at hscan
    simp only [Scanner.turn, hq]
    exact ⟨⟨htmpl, by simp [hidx], hscan, fun _ => by omega, by simp⟩, trivial⟩
  | placeOpen =>
    rw [hq] at hscan
    simp only [Scanner.turn, hq]
    refine ⟨⟨htmpl, by simp [hidx], hscan, by simp, fun _ => ?_⟩, trivial⟩
    show s.idx - 1 < _
    omega
  | place =>
    have hbegun := h.begun ((State.begun_of_next (Or.inl hq)).elim Or.inl fun hp => Or.inr (Or.inl hp))
    rw [hq] at hscan
    simp only [Scanner.turn, hq]
    refine ⟨⟨htmpl, by simp [hidx], hscan, by simp, fun _ => ?_⟩, trivial⟩
    show s.placeOpen < _
    omega
  | curlyClose =>
    have hbegun := h.begun ((State.begun_of_next (Or.inr hq)).elim Or.inl fun hp => Or.inr (Or.inl hp))
    rw [hq] at hscan
    simp only [Scanner.turn, hq]
    refine ⟨⟨htmpl, by simp [hidx], hscan, by simp, fun _ => ?_⟩, trivial⟩
    show s.placeOpen < _
    omega

/-- A turn that replaces something: its text began before. -/
theorem At.turn_close (subjects : List Char → List Char) (h : At s done (c :: rest))
    (hc : s.state.next c = .placeClose) :
    s.placeOpen < done.length ∧
      (s.turn subjects c).edits = s.edits ++ [⟨s.placeOpen, s.idx - s.placeOpen + 1, s.place⟩] := by
  refine ⟨h.begun (Or.inr (Or.inr (State.close_of_next hc))), ?_⟩
  simp only [Scanner.turn, hc]

theorem edits_turn (s : Scanner) (c : Char) : s.edits <+: (s.turn subjects c).edits := by
  cases hq : s.state.next c <;> simp [Scanner.turn, hq]

theorem run_edits {fuel : ℕ} {r : List Char × List Edit} (h : s.run subjects fuel = some r) : s.edits <+: r.2 := by
  induction fuel generalizing s with
  | zero => cases h
  | succ fuel ih =>
    unfold Scanner.run at h
    split at h
    · obtain rfl := Option.some.inj h
      exact List.prefix_rfl
    · exact (edits_turn s _).trans (ih h)

theorem run_token {fuel : ℕ} (h : s.tmpl[s.idx]? = some c) :
    s.run subjects (fuel + 1) = (s.turn subjects c).run subjects fuel := by
  rw [Scanner.run, h]

/-- Inside of a placeholder the name is collected. -/
theorem run_name (name : List Char) (hname : ∀ c ∈ name, isBrace c = false) :
    ∀ (s : Scanner) (before after : List Char), s.tmpl = before ++ (name ++ after) → s.idx = before.length →
      s.state = .place → ∀ fuel, s.run subjects (fuel + name.length) =
        Scanner.run subjects fuel { s with idx := s.idx + name.length, place := s.place ++ name } := by
  induction name with
  | nil => intros; simp
  | cons c name ih =>
    intro s before after htmpl hidx hstate fuel
    have hc : c ≠ '}' := by
      have := hname c List.mem_cons_self
      simp only [isBrace, Bool.or_eq_false_iff, decide_eq_false_iff_not] at this
      exact this.2
    have htoken : s.tmpl[s.idx]? = some c := by
      rw [htmpl, hidx, List.getElem?_append_right (Nat.le_refl _)]
      simp
    have hturn : s.turn subjects c = { s with idx := s.idx + 1, place := s.place ++ [c] } := by
      simp [Scanner.turn, hstate, State.next, hc]
    have hrest := ih (fun d hd => hname d (List.mem_cons_of_mem c hd))
      { s with idx := s.idx + 1, place := s.place ++ [c] } (before ++ [c]) after (by simp [htmpl]) (by simp [hidx])
      hstate fuel
    rw [List.length_cons, ← Nat.add_assoc, run_token htoken, hturn, hrest]
    simp [Nat.add_assoc, Nat.add_comm 1]

/-- A placeholder that the machine meets outside of all braces is replaced, and the loop stands before
the text that came for it. -/
theorem At.run_place (subjects : List Char → List Char) {name : List Char} (h : At s done ('{' :: '{' :: (name ++ '}' :: '}' :: rest)))
    (hp : placeholder? ('{' :: '{' :: (name ++ '}' :: '}' :: rest)) = some name) (hout : scan done = .none) :
    ∃ s' : Scanner, At s' done (insertion subjects done name ++ rest) ∧
      s'.edits = s.edits ++ [⟨done.length, name.length + 4, name⟩] ∧
      ∀ fuel, s.run subjects (fuel + (name.length + 4)) = s'.run subjects fuel := by
  obtain ⟨c, cs, rest', rfl, hrest, hbrace⟩ := placeholder?_some hp
  have hstate : s.state = .none ∨ s.state = .placeClose := by
    have := h.state.trans hout
    cases hq : s.state <;> simp [hq, State.settle] at this ⊢
  have htmpl : s.tmpl = done ++ '{' :: '{' :: c :: (cs ++ '}' :: '}' :: rest) := h.tmpl
  have hidx := h.idx
  -- the loop after the two braces and the first character of the name
  let s₃ : Scanner := { s with idx := done.length + 3, state := .place, placeOpen := done.length, place := [c] }
  have hopen : ∀ fuel, s.run subjects (fuel + 3) = s₃.run subjects fuel := by
    intro fuel
    let s₁ : Scanner := { s with idx := done.length + 1, state := .curlyOpen }
    let s₂ : Scanner := { s with idx := done.length + 2, state := .placeOpen, placeOpen := done.length, place := [] }
    have h₁ : s.turn subjects '{' = s₁ := by
      obtain hq | hq := hstate <;> simp [Scanner.turn, hq, State.next, hidx, s₁]
    have h₂ : s₁.turn subjects '{' = s₂ := by simp [Scanner.turn, State.next, s₁, s₂]
    have h₃ : s₂.turn subjects c = s₃ := by simp [Scanner.turn, State.next, s₂, s₃]
    have t₁ : s.tmpl[s.idx]? = some '{' := by simp [htmpl, hidx]
    have t₂ : s₁.tmpl[s₁.idx]? = some '{' := by simp [htmpl, s₁]
    have t₃ : s₂.tmpl[s₂.idx]? = some c := by simp [htmpl, s₂]
    rw [run_token t₁, h₁, run_token t₂, h₂, run_token t₃, h₃]
  let s₄ : Scanner := { s₃ with idx := done.length + 3 + cs.length, place := c :: cs }
  have hname : ∀ fuel, s₃.run subjects (fuel + cs.length) = s₄.run subjects fuel :=
    run_name cs (fun d hd => hbrace d (List.mem_cons_of_mem c hd)) s₃ (done ++ ['{', '{', c]) ('}' :: '}' :: rest)
      (by simp [s₃, htmpl]) (by simp [s₃]) rfl
  -- the closing braces
  let s₅ : Scanner := { s₄ with idx := done.length + 3 + cs.length + 1, state := .curlyClose }
  have h₅ : s₄.turn subjects '}' = s₅ := by simp [Scanner.turn, State.next, s₃, s₄, s₅]
  have t₅ : s₄.tmpl[s₄.idx]? = some '}' := by
    simp [s₃, s₄, htmpl, Nat.add_assoc, Nat.add_comm 3]
  have t₆ : s₅.tmpl[s₅.idx]? = some '}' := by
    simp [s₃, s₄, s₅, htmpl, Nat.add_assoc, Nat.add_comm 3]
  have hcount : done.length + 3 + cs.length + 1 - done.length + 1 = cs.length + 1 + 4 := by omega
  have hreplace : replace s.tmpl done.length (cs.length + 1 + 4) (subjects (c :: cs)) =
      done ++ (insertion subjects done (c :: cs) ++ rest) := by
    rw [replace, htmpl, indentlevel_append _ _ (by decide), List.take_left, List.append_assoc]
    congr 2
    rw [← List.drop_drop, List.drop_left]
    simp
  have h₆ : s₅.turn subjects '}' = { s₅ with
      state := .placeClose
      idx := done.length
      tmpl := done ++ (insertion subjects done (c :: cs) ++ rest)
      edits := s.edits ++ [⟨done.length, (c :: cs).length + 4, c :: cs⟩] } := by
    simp [Scanner.turn, State.next, s₃, s₄, s₅, hcount, hreplace]
  refine ⟨s₅.turn subjects '}', ?_, ?_, fun fuel => ?_⟩
  · rw [h₆]
    exact ⟨rfl, rfl, hout.symm, by simp, by simp⟩
  · rw [h₆]
  · rw [List.length_cons, show fuel + (cs.length + 1 + 4) = fuel + 2 + cs.length + 3 by omega, hopen, hname, run_token t₅,
      h₅, run_token t₆]

/-- The next replacement does not begin at `m`. -/
structure Avoids (m : ℕ) (s : Scanner) : Prop where
  idx : m < s.idx
  opened : s.state = .curlyOpen → m + 1 < s.idx
  begun : s.state = .placeOpen ∨ s.state = .place ∨ s.state = .curlyClose → s.placeOpen ≠ m

theorem Avoids.turn {m : ℕ} (h : Avoids m s) (hc : s.state.next c ≠ .placeClose) :
    Avoids m (s.turn subjects c) ∧ (s.turn subjects c).edits = s.edits := by
  have hidx := h.idx
  have hlt : m < s.idx + 1 := by omega
  cases hq : s.state.next c with
  | placeClose => exact absurd hq hc
  | none =>
    simp only [Scanner.turn, hq]
    exact ⟨⟨hlt, by simp, by simp⟩, trivial⟩
  | curlyOpen =>
    simp only [Scanner.turn, hq]
    exact ⟨⟨hlt, fun _ => by dsimp only; omega, by simp⟩, trivial⟩
  | placeOpen =>
    have := h.opened (State.open_of_next hq)
    simp only [Scanner.turn, hq]
    exact ⟨⟨hlt, by simp, fun _ => by dsimp only; omega⟩, trivial⟩
  | place =>
    have hbegun := h.begun ((State.begun_of_next (Or.inl hq)).elim Or.inl fun hp => Or.inr (Or.inl hp))
    simp only [Scanner.turn, hq]
    exact ⟨⟨hlt, by simp, fun _ => hbegun⟩, trivial⟩
  | curlyClose =>
    have hbegun := h.begun ((State.begun_of_next (Or.inr hq)).elim Or.inl fun hp => Or.inr (Or.inl hp))
    simp only [Scanner.turn, hq]
    exact ⟨⟨hlt, by simp, fun _ => hbegun⟩, trivial⟩

theorem Avoids.run {m fuel : ℕ} {out : List Char} {e : Edit} {more : List Edit} (h : Avoids m s)
    (hrun : s.run subjects fuel = some (out, s.edits ++ e :: more)) : e.begin ≠ m := by
  induction fuel generalizing s with
  | zero => cases hrun
  | succ fuel ih =>
    unfold Scanner.run at hrun
    split at hrun
    · simp at hrun
    · rename_i c _
      by_cases hc : s.state.next c = .placeClose
      · have hpre := run_edits hrun
        have hedits : (s.turn subjects c).edits = s.edits ++ [⟨s.placeOpen, s.idx - s.placeOpen + 1, s.place⟩] := by
          simp only [Scanner.turn, hc]
        rw [hedits, List.prefix_append_right_inj, List.cons_prefix_cons] at hpre
        rw [← hpre.1]
        exact h.begun (Or.inr (Or.inr (State.close_of_next hc)))
      · have hturn : Avoids m (s.turn subjects c) ∧ (s.turn subjects c).edits = s.edits := h.turn hc
        exact ih hturn.1 (by rw [hturn.2]; exact hrun)

theorem run_add {fuel : ℕ} {r : List Char × List Edit} (h : s.run subjects fuel = some r) (more : ℕ) :
    s.run subjects (fuel + more) = some r := by
  induction fuel generalizing s with
  | zero => cases h
  | succ fuel ih =>
    rw [Nat.add_right_comm]
    unfold Scanner.run at h ⊢
    split at h
    · exact h
    · exact ih h

/-! ## Single pass -/

theorem At.next_eq (h : At s done (c :: rest)) : s.state.next c = scan (done ++ [c]) := by
  rw [scan_append, ← h.state, State.next_settle]

/-- A placeholder is replaced in its place only when the machine is outside of all braces. -/
theorem At.outside {fuel count : ℕ} {name out : List Char} {more : List Edit} (h : At s done ('{' :: rest))
    (hrun : s.run subjects fuel = some (out, s.edits ++ ⟨done.length, count, name⟩ :: more)) : scan done = .none := by
  by_contra hne
  cases fuel with
  | zero => cases hrun
  | succ fuel =>
    rw [h.run_succ] at hrun
    have hidx := h.idx
    have hturn : Avoids done.length (s.turn subjects '{') ∧ (s.turn subjects '{').edits = s.edits := by
      have hstate := h.state
      cases hq : s.state with
      | none =>
        rw [hq] at hstate
        exact absurd hstate.symm hne
      | placeClose =>
        rw [hq] at hstate
        exact absurd hstate.symm hne
      | curlyOpen =>
        have := h.opened hq
        simp only [Scanner.turn, hq, State.next, if_true]
        exact ⟨⟨by dsimp only; omega, by simp, fun _ => by dsimp only; omega⟩, trivial⟩
      | placeOpen =>
        have := h.begun (Or.inl hq)
        simp only [Scanner.turn, hq, State.next]
        exact ⟨⟨by dsimp only; omega, by simp, fun _ => by dsimp only; omega⟩, trivial⟩
      | place =>
        have := h.begun (Or.inr (Or.inl hq))
        simp only [Scanner.turn, hq, State.next, show ¬ '{' = '}' by decide, if_false]
        exact ⟨⟨by dsimp only; omega, by simp, fun _ => by dsimp only; omega⟩, trivial⟩
      | curlyClose =>
        simp only [Scanner.turn, hq, State.next, show ¬ '{' = '}' by decide, if_false]
        exact ⟨⟨by dsimp only; omega, by simp, by simp⟩, trivial⟩
    rw [← hturn.2] at hrun
    exact hturn.1.run hrun rfl

/-- Text in which the machine completes nothing is passed over. -/
theorem At.pass (subjects : List Char → List Char) (seg : List Char) : ∀ {s : Scanner} {done : List Char}, At s done (seg ++ rest) →
    (∀ n, done.length < n → scan ((done ++ seg).take n) ≠ .placeClose) →
    ∃ s' : Scanner, At s' (done ++ seg) rest ∧ s'.edits = s.edits ∧
      ∀ fuel, s.run subjects (fuel + seg.length) = s'.run subjects fuel := by
  induction seg with
  | nil =>
    intro s done h _
    exact ⟨s, by simpa using h, rfl, fun fuel => rfl⟩
  | cons c seg ih =>
    intro s done h hseg
    have hc : s.state.next c ≠ .placeClose := by
      have := hseg (done.length + 1) (Nat.lt_succ_self _)
      rwa [take_snoc, ← h.next_eq] at this
    have hturn : At (s.turn subjects c) (done ++ [c]) (seg ++ rest) ∧ (s.turn subjects c).edits = s.edits := h.turn hc
    obtain ⟨s', hat, hedits, hrun⟩ := ih hturn.1 fun n hn => by
      rw [List.length_append] at hn
      simpa using hseg n (by omega)
    refine ⟨s', by simpa using hat, hedits.trans hturn.2, fun fuel => ?_⟩
    rw [List.length_cons, ← Nat.add_assoc, h.run_succ, hrun]

/-- Conversely, when all replacements come behind it, the machine completes nothing in it. -/
theorem At.passed (seg : List Char) {out : List Char} {edits : List Edit} :
    ∀ {s : Scanner} {done : List Char} {fuel : ℕ}, At s done (seg ++ rest) →
    s.run subjects fuel = some (out, s.edits ++ edits) → (∀ e ∈ edits, (done ++ seg).length ≤ e.begin) →
    (∀ n, done.length < n → n ≤ (done ++ seg).length → scan ((done ++ seg).take n) ≠ .placeClose) ∧
    ∃ (s' : Scanner) (fuel' : ℕ), At s' (done ++ seg) rest ∧ s'.run subjects fuel' = some (out, s'.edits ++ edits) := by
  induction seg with
  | nil =>
    intro s done fuel h hrun _
    refine ⟨fun n hn hle => ?_, s, fuel, by simpa using h, hrun⟩
    simp only [List.append_nil] at hle
    omega
  | cons c seg ih =>
    intro s done fuel h hrun hbehind
    cases fuel with
    | zero => cases hrun
    | succ fuel =>
      rw [List.cons_append] at h
      rw [h.run_succ] at hrun
      have hc : s.state.next c ≠ .placeClose := by
        intro hc
        obtain ⟨hlt, hedits⟩ := h.turn_close subjects hc
        have hpre := run_edits hrun
        rw [hedits, List.prefix_append_right_inj] at hpre
        have hmem := hbehind _ (hpre.subset List.mem_cons_self)
        simp only [List.length_append] at hmem
        omega
      have hturn : At (s.turn subjects c) (done ++ [c]) (seg ++ rest) ∧ (s.turn subjects c).edits = s.edits :=
        h.turn hc
      rw [← hturn.2] at hrun
      obtain ⟨hrest, s', fuel', hat, hrun'⟩ := ih hturn.1 hrun (by simpa using hbehind)
      refine ⟨fun n hn hle => ?_, s', fuel', by simpa using hat, hrun'⟩
      by_cases hn1 : n = done.length + 1
      · rwa [hn1, take_snoc, ← h.next_eq]
      · have := hrest n (by simp only [List.length_append, List.length_singleton]; omega) (by simpa using hle)
        simpa using this

end

theorem run_of_undisturbed (subjects : List Char → List Char) (k : ℕ) : ∀ (rest done : List Char) (s : Scanner),
    rest.length = k → At s done rest →
    Undisturbed (expand subjects 0 done rest).1 (expand subjects 0 done rest).2 →
    ∃ fuel, s.run subjects fuel = some ((expand subjects 0 done rest).1, s.edits ++ (expand subjects 0 done rest).2) := by
  induction k using Nat.strong_induction_on with
  | _ k ih =>
    intro rest done s hk h hund
    cases rest with
    | nil => exact ⟨1, by simpa [expand] using h.run_nil 0⟩
    | cons c rest =>
      cases hp : placeholder? (c :: rest) with
      | none =>
        rw [expand_char hp] at hund ⊢
        have hpre := (expand_behind subjects rest 0 (done ++ [c])).1
        have hc : s.state.next c ≠ .placeClose := by
          have := hund.1 (done ++ [c]).length
          rwa [take_of_leading hpre, ← h.next_eq] at this
        have hturn : At (s.turn subjects c) (done ++ [c]) rest ∧ (s.turn subjects c).edits = s.edits := h.turn hc
        obtain ⟨fuel, hrun⟩ := ih rest.length (by simp only [List.length_cons] at hk; omega) rest _ _ rfl hturn.1 hund
        exact ⟨fuel + 1, by rw [h.run_succ, hrun, hturn.2]⟩
      | some name =>
        obtain ⟨d, ds, rest', _, htext, _⟩ := placeholder?_some hp
        rw [htext] at h hp hund hk ⊢
        rw [expand_place hp] at hund ⊢
        obtain ⟨hclose, hedits⟩ := hund
        have hpre := (expand_behind subjects rest' 0 (done ++ insertion subjects done name)).1
        have hout : scan done = .none := by
          have := hedits ⟨done.length, name.length + 4, name⟩ List.mem_cons_self
          rwa [take_of_leading ((List.prefix_append done _).trans hpre)] at this
        obtain ⟨s₁, hat₁, hedits₁, hrun₁⟩ := h.run_place subjects hp hout
        obtain ⟨s₂, hat₂, hedits₂, hrun₂⟩ := hat₁.pass subjects (insertion subjects done name) fun n _ => by
          rw [← take_of_leading ((List.take_prefix n _).trans hpre)]
          exact hclose _
        obtain ⟨fuel, hrun⟩ := ih rest'.length (by simp at hk; omega) rest' _ _ rfl hat₂
          ⟨hclose, fun e he => hedits e (List.mem_cons_of_mem _ he)⟩
        refine ⟨fuel + (insertion subjects done name).length + (name.length + 4), ?_⟩
        rw [hrun₁, hrun₂, hrun, hedits₂, hedits₁]
        simp

theorem undisturbed_of_run (subjects : List Char → List Char) (k : ℕ) :
    ∀ (rest done : List Char) (s : Scanner) (fuel : ℕ), rest.length = k → At s done rest →
    s.run subjects fuel = some ((expand subjects 0 done rest).1, s.edits ++ (expand subjects 0 done rest).2) →
    (∀ n, done.length < n → scan ((expand subjects 0 done rest).1.take n) ≠ .placeClose) ∧
      ∀ e ∈ (expand subjects 0 done rest).2, scan ((expand subjects 0 done rest).1.take e.begin) = .none := by
  induction k using Nat.strong_induction_on with
  | _ k ih =>
    intro rest done s fuel hk h hrun
    cases rest with
    | nil =>
      refine ⟨fun n hn => ?_, by simp [expand]⟩
      have hstate := h.state
      rw [expand, List.take_of_length_le (by dsimp only; omega), ← hstate]
      cases s.state <;> simp [State.settle]
    | cons c rest =>
      cases hp : placeholder? (c :: rest) with
      | none =>
        rw [expand_char hp] at hrun ⊢
        obtain ⟨hpre, hbehind⟩ := expand_behind subjects rest 0 (done ++ [c])
        obtain ⟨hc, s', fuel', hat, hrun'⟩ := At.passed [c] h hrun hbehind
        obtain ⟨hclose, hedits⟩ := ih rest.length (by simp only [List.length_cons] at hk; omega) rest _ _ _ rfl hat hrun'
        refine ⟨fun n hn => ?_, hedits⟩
        by_cases hn1 : n = done.length + 1
        · have := hc n hn (by simp [hn1])
          rw [hn1, take_snoc] at this
          rwa [hn1, show done.length + 1 = (done ++ [c]).length by simp, take_of_leading hpre]
        · exact hclose n (by simp only [List.length_append, List.length_singleton]; omega)
      | some name =>
        obtain ⟨d, ds, rest', _, htext, _⟩ := placeholder?_some hp
        rw [htext] at h hp hrun hk ⊢
        rw [expand_place hp] at hrun ⊢
        obtain ⟨hpre, hbehind⟩ := expand_behind subjects rest' 0 (done ++ insertion subjects done name)
        have hout : scan done = .none := h.outside hrun
        have hdone : scan ((expand subjects 0 (done ++ insertion subjects done name) rest').1.take done.length) = .none := by
          rwa [take_of_leading ((List.prefix_append done _).trans hpre)]
        obtain ⟨s₁, hat₁, hedits₁, hrun₁⟩ := h.run_place subjects hp hout
        have hrun₁' := run_add hrun (name.length + 4)
        rw [hrun₁, List.append_cons, ← hedits₁] at hrun₁'
        obtain ⟨hins, s₂, fuel₂, hat₂, hrun₂⟩ := At.passed (insertion subjects done name) hat₁ hrun₁' hbehind
        obtain ⟨hclose, hedits⟩ := ih rest'.length (by simp at hk; omega) rest' _ _ _ rfl hat₂ hrun₂
        refine ⟨fun n hn => ?_, fun e he => ?_⟩
        · by_cases hle : n ≤ (done ++ insertion subjects done name).length
          · have := hins n hn hle
            rwa [← take_of_leading ((List.take_prefix n _).trans hpre), List.length_take_of_le hle] at this
          · exact hclose n (by omega)
        · obtain rfl | he := List.mem_cons.mp he
          · exact hdone
          · exact hedits e he

/-- `fill` is a single pass exactly when the expanded template does not disturb its state machine. -/
theorem singlePass_iff (subjects : List Char → List Char) (tmpl : List Char) :
    SinglePass subjects tmpl ↔
      Undisturbed (expand subjects 0 [] tmpl).1 (expand subjects 0 [] tmpl).2 := by
  have hstart : At { tmpl := tmpl } [] tmpl := ⟨rfl, rfl, rfl, by simp, by simp⟩
  constructor
  · intro ⟨fuel, hrun⟩
    obtain ⟨hclose, hedits⟩ := undisturbed_of_run subjects _ tmpl [] { tmpl := tmpl } fuel rfl hstart hrun
    refine ⟨fun n => ?_, hedits⟩
    by_cases hn : n = 0
    · simp [hn, scan]
    · exact hclose n (Nat.pos_of_ne_zero hn)
  · intro hund
    exact run_of_undisturbed subjects _ tmpl [] { tmpl := tmpl } rfl hstart hund

/-- The subject of the only placeholder is itself a placeholder; the second pass finds nothing for it. -/
theorem not_singlePass_nested :
    let subjects : List Char → List Char := fun name => if name = ['A'] then ['{', '{', 'B', '}', '}'] else ['b']
    ¬ SinglePass subjects ['{', '{', 'A', '}', '}'] ∧
      (fill subjects 20 ['{', '{', 'A', '}', '}']).map Prod.fst = some ['b'] ∧
      (expand subjects 0 [] ['{', '{', 'A', '}', '}']).1 = ['{', '{', 'B', '}', '}'] := by
  intro subjects
  have hrun : fill subjects 20 ['{', '{', 'A', '}', '}'] = some (['b'], [⟨0, 5, ['A']⟩, ⟨0, 5, ['B']⟩]) := by decide
  refine ⟨fun ⟨fuel, h⟩ => ?_, by rw [hrun]; rfl, by decide⟩
  have h₁ := run_add h 20
  have h₂ := run_add hrun fuel
  rw [Nat.add_comm, h₁, Option.some_inj] at h₂
  exact absurd h₂ (by decide)

end Bohrium.Plaid
