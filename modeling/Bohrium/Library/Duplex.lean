import Mathlib.Data.Nat.Notation
import Mathlib.Logic.Relation
import Mathlib.Tactic.SplitIfs

/-! # Two processes and a stream each way

A process sends items, waits for a number of items, and ends with a result. Two of them that talk over
two reliable streams are confluent: all orders of steps lead to the one end, if there is one
(`Net.Runs.complete`). So it is enough to know what each process does with its input alone
(`Proc.Yields`). -/
namespace Duplex
set_option autoImplicit false

variable {A α β : Type}

inductive Proc (A α : Type)
  | ret (a : α)
  | fail
  | send (out : List A) (k : Proc A α)
  | recv (n : ℕ) (k : List A → Proc A α)

namespace Proc

def bind : Proc A α → (α → Proc A β) → Proc A β
  | .ret a, f => f a
  | .fail, _ => .fail
  | .send out k, f => .send out (k.bind f)
  | .recv n k, f => .recv n fun d => (k d).bind f

instance : Monad (Proc A) where
  pure := .ret
  bind := Proc.bind

/-- The result, what was sent, and what is left of the input. -/
def run : Proc A α → List A → Option (α × List A × List A)
  | .ret a, inp => some (a, [], inp)
  | .fail, _ => none
  | .send out k, inp => (k.run inp).map fun r => (r.1, out ++ r.2.1, r.2.2)
  | .recv n k, inp => if n ≤ inp.length then (k (inp.take n)).run (inp.drop n) else none

/-- The process takes `inp` from its input and no more, sends `out`, and ends with `a`. -/
def Yields (p : Proc A α) (inp out : List A) (a : α) : Prop :=
  ∀ rest, p.run (inp ++ rest) = some (a, out, rest)

@[simp] theorem pure_def (a : α) : (pure a : Proc A α) = .ret a := rfl

@[simp] theorem bind_def (p : Proc A α) (f : α → Proc A β) : p >>= f = p.bind f := rfl

theorem bind_ret (p : Proc A α) : p.bind .ret = p := by
  induction p with
  | ret a => rfl
  | fail => rfl
  | send out k ih => rw [bind, ih]
  | recv n k ih =>
    rw [bind]
    congr 1
    funext d
    exact ih d

theorem run_bind (p : Proc A α) (f : α → Proc A β) (inp : List A) :
    (p.bind f).run inp =
      (p.run inp).bind fun r => ((f r.1).run r.2.2).map fun s => (s.1, r.2.1 ++ s.2.1, s.2.2) := by
  induction p generalizing inp with
  | ret a =>
    show (f a).run inp = ((f a).run inp).map fun s => (s.1, s.2.1, s.2.2)
    exact Option.map_id'.symm
  | fail => rfl
  | send out k ih =>
    simp only [bind, run, ih, Option.map_bind, Option.bind_map]
    congr 1
    funext r
    simp [Function.comp_def]
  | recv n k ih =>
    simp only [bind, run]
    split_ifs
    · exact ih _ _
    · rfl

theorem yields_ret (a : α) : (ret a : Proc A α).Yields [] [] a := fun _ => rfl

theorem yields_send (out : List A) {p : Proc A α} {inp out' : List A} {a : α} (h : p.Yields inp out' a) :
    (send out p).Yields inp (out ++ out') a := by
  intro rest
  rw [run, h rest]
  rfl

theorem yields_recv {n : ℕ} {k : List A → Proc A α} {d inp out : List A} {a : α} (hd : d.length = n)
    (h : (k d).Yields inp out a) : (recv n k).Yields (d ++ inp) out a := by
  intro rest
  rw [List.append_assoc, run, if_pos (by simp [hd]), List.take_left' hd, List.drop_left' hd]
  exact h rest

theorem Yields.bind {p : Proc A α} {f : α → Proc A β} {inp inp' out out' : List A} {a : α} {b : β}
    (hp : p.Yields inp out a) (hf : (f a).Yields inp' out' b) :
    (p.bind f).Yields (inp ++ inp') (out ++ out') b := by
  intro rest
  rw [run_bind, List.append_assoc, hp, Option.bind_some, hf]
  rfl

theorem Yields.bind_eq_ret {p : Proc A α} {f : α → Proc A β} {inp out : List A} {a : α} {b : β}
    (hp : p.Yields inp out a) (hf : f a = .ret b) : (p.bind f).Yields inp out b := by
  have h := hp.bind (hf ▸ yields_ret b : (f a).Yields [] [] b)
  rwa [List.append_nil, List.append_nil] at h

/-- One step: how the process goes on, what it sends, and what is left of the input. -/
def step : Proc A α → List A → Option (Proc A α × List A × List A)
  | .ret _, _ | .fail, _ => none
  | .send out k, inp => some (k, out, inp)
  | .recv n k, inp => if n ≤ inp.length then some (k (inp.take n), [], inp.drop n) else none

/-- More input does not change what a process does. -/
theorem step_append {p p' : Proc A α} {inp inp' out : List A} (h : p.step inp = some (p', out, inp'))
    (more : List A) : p.step (inp ++ more) = some (p', out, inp' ++ more) := by
  cases p with
  | ret a => cases h
  | fail => cases h
  | send o k =>
    cases h
    rfl
  | recv n k =>
    rw [step] at h
    split_ifs at h with hn
    cases h
    rw [step, if_pos (by rw [List.length_append]; omega), List.take_append_of_le_length hn,
      List.drop_append_of_le_length hn]

end Proc

/-- Two processes, and the items on their way from the left one to the right one and back. -/
@[ext]
structure Net (A α β : Type) where
  left : Proc A α
  right : Proc A β
  up : List A
  down : List A

namespace Net

inductive Step : Net A α β → Net A α β → Prop
  | left {p p' : Proc A α} {q : Proc A β} {up down down' out : List A} (h : p.step down = some (p', out, down')) :
      Step ⟨p, q, up, down⟩ ⟨p', q, up ++ out, down'⟩
  | right {p : Proc A α} {q q' : Proc A β} {up up' down out : List A} (h : q.step up = some (q', out, up')) :
      Step ⟨p, q, up, down⟩ ⟨p, q', up', down ++ out⟩

/-- Any order of steps. -/
def Runs : Net A α β → Net A α β → Prop := Relation.ReflTransGen Step

theorem step_diamond {n a b : Net A α β} (ha : Step n a) (hb : Step n b) : a = b ∨ ∃ c, Step a c ∧ Step b c := by
  cases ha with
  | left ha =>
    cases hb with
    | left hb =>
      rw [ha] at hb
      cases hb
      exact Or.inl rfl
    | right hb => exact Or.inr ⟨_, Step.right (Proc.step_append hb _), Step.left (Proc.step_append ha _)⟩
  | right ha =>
    cases hb with
    | left hb => exact Or.inr ⟨_, Step.left (Proc.step_append hb _), Step.right (Proc.step_append ha _)⟩
    | right hb =>
      rw [ha] at hb
      cases hb
      exact Or.inl rfl

theorem not_step_ret {a : α} {b : β} {up down : List A} {n : Net A α β} : ¬ Step ⟨.ret a, .ret b, up, down⟩ n := by
  intro h
  cases h with
  | left h => cases h
  | right h => cases h

/-- If both processes can end, then they can end so after any steps that they have made. -/
theorem Runs.complete {n n' : Net A α β} {a : α} {b : β} {up down : List A} (hend : Runs n ⟨.ret a, .ret b, up, down⟩)
    (h : Runs n n') : Runs n' ⟨.ret a, .ret b, up, down⟩ := by
  obtain ⟨c, hc, hc'⟩ := Relation.church_rosser (fun x y z hy hz => by
    rcases step_diamond hy hz with rfl | ⟨d, hd, hd'⟩
    · exact ⟨y, Relation.ReflGen.refl, Relation.ReflTransGen.refl⟩
    · exact ⟨d, Relation.ReflGen.single hd, Relation.ReflTransGen.single hd'⟩) h hend
  cases hc'.cases_head with
  | inl heq => exact heq ▸ hc
  | inr hstep =>
    obtain ⟨d, hd, _⟩ := hstep
    exact absurd hd not_step_ret

/-- The end is the only one. -/
theorem Runs.unique {n : Net A α β} {a a' : α} {b b' : β} {up up' down down' : List A}
    (h : Runs n ⟨.ret a, .ret b, up, down⟩) (h' : Runs n ⟨.ret a', .ret b', up', down'⟩) :
    a = a' ∧ b = b' ∧ up = up' ∧ down = down' := by
  cases (h.complete h').cases_head with
  | inl heq =>
    injection heq with ha hb hup hdown
    injection ha with ha
    injection hb with hb
    exact ⟨ha.symm, hb.symm, hup.symm, hdown.symm⟩
  | inr hstep =>
    obtain ⟨d, hd, _⟩ := hstep
    exact absurd hd not_step_ret

theorem runs_left {γ : Type} {p : Proc A γ} {f : γ → Proc A α} {q : Proc A β} {inp out rest up : List A} {c : γ}
    (h : p.run inp = some (c, out, rest)) : Runs ⟨p.bind f, q, up, inp⟩ ⟨f c, q, up ++ out, rest⟩ := by
  induction p generalizing inp out up with
  | ret a =>
    cases h
    rw [List.append_nil]
    exact Relation.ReflTransGen.refl
  | fail => cases h
  | send o k ih =>
    rw [Proc.run, Option.map_eq_some_iff] at h
    obtain ⟨⟨c', out', rest'⟩, hk, heq⟩ := h
    cases heq
    have hrest : Runs ⟨k.bind f, q, up ++ o, inp⟩ ⟨f c', q, up ++ o ++ out', rest'⟩ := ih hk
    rw [List.append_assoc] at hrest
    exact Relation.ReflTransGen.head (Step.left rfl) hrest
  | recv n k ih =>
    rw [Proc.run] at h
    split_ifs at h with hn
    have hstep : (Proc.recv n fun d => (k d).bind f).step inp = some ((k (inp.take n)).bind f, [], inp.drop n) := if_pos hn
    have hhead : Step ⟨.recv n fun d => (k d).bind f, q, up, inp⟩ ⟨(k (inp.take n)).bind f, q, up, inp.drop n⟩ := by
      have hleft : Step ⟨.recv n fun d => (k d).bind f, q, up, inp⟩
          ⟨(k (inp.take n)).bind f, q, up ++ [], inp.drop n⟩ := Step.left hstep
      rwa [List.append_nil] at hleft
    exact Relation.ReflTransGen.head hhead (ih _ h)

def swap (n : Net A α β) : Net A β α := ⟨n.right, n.left, n.down, n.up⟩

theorem Step.swap {n n' : Net A α β} (h : Step n n') : Step n.swap n'.swap := by
  cases h with
  | left h => exact Step.right h
  | right h => exact Step.left h

theorem Runs.swap {n n' : Net A α β} (h : Runs n n') : Runs n.swap n'.swap := by
  induction h with
  | refl => exact Relation.ReflTransGen.refl
  | tail _ hstep ih => exact Relation.ReflTransGen.tail ih hstep.swap

/-- A request and its answer: the left process sends all its items, then the right one works on them,
and what that sends is the input of the rest of the left one. -/
theorem runs_exchange {γ : Type} {p : Proc A γ} {f : γ → Proc A α} {q : Proc A β} {request answer : List A} {c : γ}
    {a : α} {b : β} (hp : p.Yields [] request c) (hq : q.Yields request answer b) (hf : (f c).Yields answer [] a) :
    Runs ⟨p.bind f, q, [], []⟩ ⟨.ret a, .ret b, [], []⟩ := by
  have hsend : Runs ⟨p.bind f, q, [], []⟩ ⟨f c, q, request, []⟩ := runs_left (hp [])
  have hserve : Runs ⟨q, f c, [], request⟩ ⟨.ret b, f c, answer, []⟩ := by
    have hrun := hq []
    rw [List.append_nil] at hrun
    have h : Runs ⟨q.bind .ret, f c, [], request⟩ ⟨.ret b, f c, answer, []⟩ := runs_left hrun
    rwa [Proc.bind_ret] at h
  have hreceive : Runs ⟨f c, .ret b, [], answer⟩ ⟨.ret a, .ret b, [], []⟩ := by
    have hrun := hf []
    rw [List.append_nil] at hrun
    have h : Runs ⟨(f c).bind .ret, .ret b, [], answer⟩ ⟨.ret a, .ret b, [], []⟩ := runs_left hrun
    rwa [Proc.bind_ret] at h
  exact (hsend.trans hserve.swap).trans hreceive

end Net
end Duplex
