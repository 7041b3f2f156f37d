import Bohrium.Library.Walk
import Mathlib.Algebra.Module.Pi
import Mathlib.Data.List.Induction
import Mathlib.Data.List.GetD
import Mathlib.Tactic.Abel

/-! # Loops with pointers

A loop over strided data keeps a pointer for every operand and adds to it. `Walks` says which pointers a piece
of such a program passes to the body, relative to where it starts, and how far the pointers are afterwards; it
composes like the program. The outer dimensions are counted by a counter with carry, which goes through the
index tuples in order (`tick_coords`). -/
namespace Pointers
open Walk Strided
set_option autoImplicit false

variable {α β σ : Type*}

/-! ## Repetition -/

/-- `n` rounds. -/
def times (f : α → Option α) : ℕ → α → Option α
  | 0, a => some a
  | n + 1, a => (f a).bind (times f n)

theorem times_add (f : α → Option α) (m n : ℕ) (a : α) : times f (m + n) a = (times f m a).bind (times f n) := by
  induction m generalizing a with
  | zero => rw [Nat.zero_add]; rfl
  | succ m ih =>
    rw [Nat.succ_add, times, times, Option.bind_assoc]
    congr 1
    funext b
    exact ih b

theorem times_mul (f : α → Option α) (m n : ℕ) (a : α) : times f (m * n) a = times (times f n) m a := by
  induction m generalizing a with
  | zero => rw [Nat.zero_mul]; rfl
  | succ m ih =>
    rw [Nat.succ_mul, Nat.add_comm, times_add, times]
    congr 1
    funext b
    exact ih b

/-- A loop that does the same as another one under a change of variables, as long as `P` holds. -/
theorem times_map {f : α → Option α} {g : β → Option β} {φ : α → β} {P : α → Prop}
    (h : ∀ a, P a → (f a).map φ = g (φ a) ∧ ∀ b ∈ f a, P b) (n : ℕ) {a : α} (ha : P a) :
    (times f n a).map φ = times g n (φ a) ∧ ∀ b ∈ times f n a, P b := by
  induction n generalizing a with
  | zero => exact ⟨rfl, fun b hb => Option.some.inj hb ▸ ha⟩
  | succ n ih =>
    obtain ⟨hmap, hkeep⟩ := h a ha
    rw [times, times, ← hmap]
    cases hf : f a with
    | none => simp
    | some b => exact ih (hkeep b hf)

theorem times_comm {f : α → Option α} {g : β → Option β} {φ : α → β} (h : ∀ a, (f a).map φ = g (φ a)) (n : ℕ) (a : α) :
    (times f n a).map φ = times g n (φ a) :=
  (times_map (P := fun _ => True) (fun a _ => ⟨h a, fun _ _ => trivial⟩) n trivial).1

theorem times_forall {f : α → Option α} {P : α → Prop} (h : ∀ a, ∀ b ∈ f a, P b) {n : ℕ} (hn : 0 < n) (a : α) :
    ∀ b ∈ times f n a, P b := by
  obtain ⟨m, rfl⟩ := Nat.exists_eq_succ_of_ne_zero hn.ne'
  intro b hb
  rw [Nat.succ_eq_add_one, times_add] at hb
  obtain ⟨c, -, hc⟩ := Option.bind_eq_some_iff.mp hb
  have hone : times f 1 c = f c := Option.bind_fun_some _
  exact h c b (hone ▸ hc)

/-- A loop that does not look at its index. -/
theorem foldlM_const {ι : Type*} (f : α → Option α) (l : List ι) (a : α) : l.foldlM (fun a _ => f a) a = times f l.length a := by
  induction l generalizing a with
  | nil => rfl
  | cons i l ih =>
    rw [List.foldlM_cons, List.length_cons, times]
    show (f a).bind _ = _
    congr 1
    funext b
    exact ih b

/-! ## Pieces of a program -/

section
variable {K : Type*} (body : (K → ℤ) → σ → Option σ)

/-- The body at one pointer after the other. -/
def visit (ps : List (K → ℤ)) (s : σ) : Option σ := ps.foldlM (fun s p => body p s) s

theorem visit_append (ps qs : List (K → ℤ)) (s : σ) : visit body (ps ++ qs) s = (visit body ps s).bind (visit body qs) :=
  List.foldlM_append ..

/-- The piece `f` visits the pointers `ps` behind the one it starts at, and goes on by `d`. -/
def Walks (f : (K → ℤ) × σ → Option ((K → ℤ) × σ)) (ps : List (K → ℤ)) (d : K → ℤ) : Prop :=
  ∀ p s, f (p, s) = (visit body (ps.map (p + ·)) s).map (p + d, ·)

/-- The body, and the pointers go on. -/
def step (d : K → ℤ) (s : (K → ℤ) × σ) : Option ((K → ℤ) × σ) := (body s.1 s.2).map (s.1 + d, ·)

/-- The pointers go on. -/
def skip (d : K → ℤ) (s : (K → ℤ) × σ) : Option ((K → ℤ) × σ) := some (s.1 + d, s.2)

theorem walks_step (d : K → ℤ) : Walks body (step body d) [0] d := by
  intro p s
  rw [List.map_singleton, add_zero, visit, List.foldlM_cons]
  cases h : body p s with
  | none => simp [step, h]
  | some t => simp [step, h]

variable {body} {f g : (K → ℤ) × σ → Option ((K → ℤ) × σ)} {ps qs : List (K → ℤ)} {d e : K → ℤ}

theorem walks_skip (d : K → ℤ) : Walks body (skip d) [] d := fun _ _ => rfl

theorem Walks.bind (hf : Walks body f ps d) (hg : Walks body g qs e) :
    Walks body (fun s => (f s).bind g) (ps ++ qs.map (d + ·)) (d + e) := by
  intro p s
  dsimp only
  rw [hf, List.map_append, visit_append, List.map_map]
  simp only [Function.comp_def, ← add_assoc]
  cases visit body (ps.map (p + ·)) s with
  | none => rfl
  | some t =>
    rw [Option.map_some, Option.bind_some, Option.bind_some, hg]

theorem Walks.times (hf : Walks body f ps d) (n : ℕ) :
    Walks body (times f n) ((List.range n).flatMap fun i => ps.map (i • d + ·)) (n • d) := by
  induction n with
  | zero =>
    intro p s
    simp [Pointers.times, visit]
  | succ n ih =>
    have hstep : Pointers.times f (n + 1) = fun s => (Pointers.times f n s).bind f := by
      funext s
      rw [times_add]
      congr 1
      funext t
      simp [Pointers.times]
    rw [hstep, List.range_succ, List.flatMap_append, List.flatMap_singleton, succ_nsmul]
    exact ih.bind hf

/-- The displacements of a loop nest, from the outer loop to the inner one. -/
def displacements : List (ℕ × (K → ℤ)) → List (K → ℤ)
  | [] => [0]
  | (n, d) :: rest => (List.range n).flatMap fun i => (displacements rest).map (i • d + ·)

/-- A loop whose pointers are set back at its end. -/
theorem Walks.row (hf : Walks body f ps d) (n : ℕ) : Walks body (fun s => (Pointers.times f n s).bind (skip (e - n • d)))
    ((List.range n).flatMap fun i => ps.map (i • d + ·)) e := by
  have hrow := (hf.times n).bind (walks_skip (e - n • d))
  rwa [List.map_nil, List.append_nil, add_sub_cancel] at hrow

end

/-! ## Counters -/

/-- Counts at position `p`, and carries. -/
def ripple (limits : List ℕ) : ℕ → List ℕ → List ℕ
  | 0, counters => counters.set 0 (counters.getD 0 0 + 1)
  | p + 1, counters =>
    if counters.getD (p + 1) 0 + 1 = limits.getD (p + 1) 0 then ripple limits p (counters.set (p + 1) 0)
    else counters.set (p + 1) (counters.getD (p + 1) 0 + 1)

def tick (limits counters : List ℕ) : List ℕ :=
  if counters = [] then [] else ripple limits (counters.length - 1) counters

theorem ripple_append {limits counters : List ℕ} (hlen : limits.length = counters.length) (ls cs : List ℕ) {p : ℕ}
    (hp : p < counters.length) : ripple (limits ++ ls) p (counters ++ cs) = ripple limits p counters ++ cs := by
  induction p generalizing counters with
  | zero => rw [ripple, ripple, List.getD_append _ _ _ _ hp, List.set_append_left _ _ hp]
  | succ p ih =>
    rw [ripple, ripple, List.getD_append _ _ _ _ hp, List.getD_append _ _ _ _ (hlen ▸ hp), List.set_append_left _ _ hp,
      List.set_append_left _ _ hp]
    split
    · exact ih (by rwa [List.length_set]) (by rw [List.length_set]; omega)
    · rfl

theorem ripple_of_ne {limits counters : List ℕ} {p : ℕ} (h : counters.getD p 0 + 1 ≠ limits.getD p 0) :
    ripple limits p counters = counters.set p (counters.getD p 0 + 1) := by
  cases p with
  | zero => rfl
  | succ p => rw [ripple, if_neg h]

theorem coords_zero (ns : List ℕ) : coords ns 0 = List.replicate ns.length 0 := by
  induction ns with
  | nil => rfl
  | cons n ns ih => rw [coords, ih, Nat.zero_div, Nat.zero_mod, List.length_cons, List.replicate_succ]

/-- The counters go through the index tuples in row-major order. -/
theorem tick_coords (ns : List ℕ) {k : ℕ} (hk : k + 1 < ns.prod) : tick ns (coords ns k) = coords ns (k + 1) := by
  induction ns using List.reverseRecOn generalizing k with
  | nil => simp at hk
  | append_singleton ns c ih =>
    rw [List.prod_append, List.prod_singleton] at hk
    have hc : 0 < c := Nat.pos_of_ne_zero fun h0 => by simp [h0] at hk
    obtain ⟨e, i, hi, rfl⟩ : ∃ e i, i < c ∧ k = e * c + i := ⟨k / c, k % c, Nat.mod_lt k hc, (Nat.div_add_mod' k c).symm⟩
    have hlen := length_coords ns e
    have hlast : (coords ns e ++ [i]).getD ns.length 0 = i := by
      rw [← hlen, List.getD_append_right _ _ _ _ le_rfl, Nat.sub_self]
      rfl
    have hset : ∀ x, (coords ns e ++ [i]).set ns.length x = coords ns e ++ [x] := by
      intro x
      rw [← hlen, List.set_append_right _ _ le_rfl, Nat.sub_self]
      rfl
    have hlimit : (ns ++ [c]).getD ns.length 0 = c := by
      rw [List.getD_append_right _ _ _ _ le_rfl, Nat.sub_self]
      rfl
    rw [coords_append ns e hi, tick, if_neg (by simp), List.length_append, List.length_singleton, hlen, Nat.add_sub_cancel]
    by_cases hcarry : i + 1 = c
    · have hprod : e + 1 < ns.prod := by
        apply Nat.lt_of_mul_lt_mul_right (a := c)
        rw [Nat.succ_mul]
        omega
      obtain ⟨q, hq⟩ : ∃ q, ns.length = q + 1 := by
        apply Nat.exists_eq_succ_of_ne_zero
        intro h0
        rw [List.length_eq_zero_iff.mp h0] at hprod
        simp at hprod
      have hne : coords ns e ≠ [] := fun h0 => by simp [h0] at hlen; omega
      have hrest := ih hprod
      rw [tick, if_neg hne, hlen, hq, Nat.add_sub_cancel] at hrest
      rw [hq] at hlast hlimit hset ⊢
      rw [ripple, hlast, hlimit, if_pos hcarry, hset, ripple_append hlen.symm _ _ (by omega), hrest,
        ← coords_append ns (e + 1) hc]
      congr 1
      rw [Nat.succ_mul]
      omega
    · have hnext : i + 1 < c := by omega
      rw [ripple_of_ne (by rwa [hlast, hlimit]), hlast, hset, ← coords_append ns e hnext]
      rfl

/-! ## Outer dimensions -/

/-- Rounds that are counted. -/
theorem times_counters {next : α → α} {f : α × σ → Option (α × σ)} {g : σ → α → Option σ}
    (h : ∀ c s, f (c, s) = (g s c).map (next c, ·)) (n : ℕ) (c : ℕ → α) (hc : ∀ k, k + 1 < n → next (c k) = c (k + 1)) (s : σ) :
    (times f n (c 0, s)).map Prod.snd = ((List.range n).map c).foldlM g s := by
  induction n generalizing c s with
  | zero => rfl
  | succ n ih =>
    rw [times, h, List.range_succ_eq_map, List.map_cons, List.foldlM_cons]
    cases g s (c 0) with
    | none => rfl
    | some t =>
      rw [Option.map_some, Option.bind_some, List.map_map]
      cases n with
      | zero => rfl
      | succ n =>
        rw [hc 0 (by omega)]
        exact ih (fun k => c (k + 1)) (fun k hk => hc (k + 1) (by omega)) t

end Pointers
