import Mathlib.Data.List.Perm.Basic
import Mathlib.Data.List.Nodup

/-! # Totals of an associative and commutative operation

The total of a list, `none` for the empty one. It does not depend on the order of the list, and it
may be taken group by group (`total_fibres`). At the end, a list under a partial function that is defined
on it. -/
namespace Fold
set_option autoImplicit false

variable {V : Type*} (op : V → V → V)

/-- The elements of a list, combined. -/
def total (xs : List V) : Option V := xs.foldr (fun x t => Option.merge op (some x) t) none

@[simp] theorem total_nil : total op [] = none := rfl

@[simp] theorem total_cons (x : V) (xs : List V) :
    total op (x :: xs) = Option.merge op (some x) (total op xs) := rfl

theorem total_append [Std.Associative op] (xs ys : List V) :
    total op (xs ++ ys) = Option.merge op (total op xs) (total op ys) := by
  induction xs with
  | nil => exact (Std.LawfulLeftIdentity.left_id (total op ys)).symm
  | cons x xs ih =>
    rw [List.cons_append, total_cons, total_cons, ih]
    exact (Std.Associative.assoc _ _ _).symm

/-- The left fold a program makes of a list that is not empty. -/
theorem total_eq_foldl [Std.Associative op] (x : V) (xs : List V) :
    total op (x :: xs) = some (xs.foldl op x) := by
  induction xs generalizing x with
  | nil => rfl
  | cons y ys ih =>
    rw [List.foldl_cons, ← ih, total_cons, total_cons, total_cons]
    exact (Std.Associative.assoc _ _ _).symm

theorem total_perm [Std.Commutative op] [Std.Associative op] {xs ys : List V} (h : xs.Perm ys) :
    total op xs = total op ys := by
  induction h with
  | nil => rfl
  | cons x _ ih => rw [total_cons, total_cons, ih]
  | swap x y l =>
    simp only [total_cons]
    rw [← (Option.associative_merge op).assoc, ← (Option.associative_merge op).assoc,
      (Option.commutative_merge op).comm (some y)]
  | trans _ _ ih ih' => exact ih.trans ih'

variable {α β : Type*}

theorem total_flatMap [Std.Associative op] (keys : List β) (g : β → List V) (f : β → V)
    (h : ∀ k ∈ keys, total op (g k) = some (f k)) :
    total op (keys.flatMap g) = total op (keys.map f) := by
  induction keys with
  | nil => rfl
  | cons k keys ih =>
    rw [List.flatMap_cons, total_append, List.map_cons, total_cons, h k List.mem_cons_self,
      ih fun k' hk' => h k' (List.mem_cons_of_mem k hk')]

/-- A list is the concatenation of its groups, up to order. -/
theorem perm_fibres [DecidableEq β] (key : α → β) {keys : List β} (hnd : keys.Nodup) (xs : List α)
    (h : ∀ x ∈ xs, key x ∈ keys) : (keys.flatMap fun k => xs.filter fun x => decide (key x = k)).Perm xs := by
  induction xs with
  | nil => simp
  | cons x xs ih =>
    obtain ⟨pre, post, rfl⟩ := List.append_of_mem (h x List.mem_cons_self)
    have hx := List.nodup_middle.mp hnd
    obtain ⟨hout, _⟩ := List.nodup_cons.mp hx
    -- only the group of `x` grows
    have hsame : ∀ ks : List β, key x ∉ ks →
        (ks.flatMap fun k => (x :: xs).filter fun x => decide (key x = k)) =
          ks.flatMap fun k => xs.filter fun x => decide (key x = k) := by
      intro ks hks
      refine List.flatMap_congr fun k hk => List.filter_cons_of_neg ?_
      simpa using fun he : key x = k => hks (he ▸ hk)
    have hrest := ih fun y hy => h y (List.mem_cons_of_mem x hy)
    rw [List.flatMap_append, List.flatMap_cons] at hrest ⊢
    rw [hsame pre (fun hm => hout (List.mem_append_left post hm)),
      hsame post (fun hm => hout (List.mem_append_right pre hm)), List.filter_cons_of_pos (by simp),
      List.cons_append]
    exact List.perm_middle.trans (hrest.cons x)

/-- Combining the groups and then the results combines everything. -/
theorem total_fibres [Std.Commutative op] [Std.Associative op] [DecidableEq β] (key : α → β)
    (value : α → V) (result : β → V) {keys : List β} (hnd : keys.Nodup) (xs : List α)
    (h : ∀ x ∈ xs, key x ∈ keys)
    (hres : ∀ k ∈ keys, total op ((xs.filter fun x => decide (key x = k)).map value) = some (result k)) :
    total op (keys.map result) = total op (xs.map value) := by
  rw [← total_flatMap op keys (fun k => (xs.filter fun x => decide (key x = k)).map value) result hres,
    ← List.map_flatMap]
  exact total_perm op ((perm_fibres key hnd xs h).map value)

/-! ## Groups that start from a common value -/

/-- The groups are folded each from `e` and then into a value that began as `e`; an empty group is
left out. -/
def foldGroups (e : V) (groups : List (List V)) : V :=
  groups.foldl (fun t g => if g = [] then t else op t (g.foldl op e)) e

theorem foldGroups_flatMap [Std.Associative op] (e t : V) (groups : List (List V)) :
    groups.foldl (fun t g => if g = [] then t else op t (g.foldl op e)) t =
      (groups.flatMap fun g => if g = [] then [] else e :: g).foldl op t := by
  induction groups generalizing t with
  | nil => rfl
  | cons g groups ih =>
    rw [List.foldl_cons, List.flatMap_cons, List.foldl_append, ih]
    by_cases hg : g = []
    · simp [hg]
    · have hg' : op t (g.foldl op e) = (e :: g).foldl op t := by rw [List.foldl_cons, List.foldl_assoc]
      rw [if_neg hg, if_neg hg, hg']

theorem perm_flatMap_start (e : V) (groups : List (List V)) :
    ∃ n, (groups.flatMap fun g => if g = [] then [] else e :: g).Perm (List.replicate n e ++ groups.flatten) := by
  induction groups with
  | nil => exact ⟨0, by simp⟩
  | cons g groups ih =>
    obtain ⟨n, hn⟩ := ih
    rw [List.flatMap_cons, List.flatten_cons]
    by_cases hg : g = []
    · exact ⟨n, by simpa [hg] using hn⟩
    · refine ⟨n + 1, ?_⟩
      rw [if_neg hg, List.replicate_succ, List.cons_append, List.cons_append]
      apply List.Perm.cons
      exact (hn.append_left g).trans ((List.perm_append_comm_assoc g _ _).trans (List.Perm.refl _))

/-- Whatever the groups and their order, only `e` is added to the plain fold. -/
theorem foldGroups_eq [Std.Commutative op] [Std.Associative op] {e : V} (he : op e e = e) {x : V} {xs : List V}
    {groups : List (List V)} (h : groups.flatten.Perm (x :: xs)) : foldGroups op e groups = op e (xs.foldl op x) := by
  have hsame : ∀ n, (List.replicate n e).foldl op e = e := by
    intro n
    induction n with
    | zero => rfl
    | succ n ih => rw [List.replicate_succ, List.foldl_cons, he, ih]
  obtain ⟨n, hn⟩ := perm_flatMap_start e groups
  have hassoc : ∀ a b c, op (op a b) c = op a (op b c) := Std.Associative.assoc
  have hcomm : ∀ a b, op a b = op b a := Std.Commutative.comm
  have : RightCommutative op := ⟨fun a b c => by rw [hassoc, hcomm b, ← hassoc]⟩
  calc foldGroups op e groups
      = (groups.flatMap fun g => if g = [] then [] else e :: g).foldl op e := foldGroups_flatMap op e e groups
    _ = (List.replicate n e ++ groups.flatten).foldl op e := hn.foldl_eq e
    _ = groups.flatten.foldl op e := by rw [List.foldl_append, hsame]
    _ = (x :: xs).foldl op e := h.foldl_eq e
    _ = op e (xs.foldl op x) := by rw [List.foldl_cons, List.foldl_assoc]

/-! ## Partial functions -/

theorem mapM_eq_some {α β : Type} {f : α → Option β} {g : α → β} {l : List α} (h : ∀ a ∈ l, f a = some (g a)) :
    l.mapM f = some (l.map g) := by
  induction l with
  | nil => rfl
  | cons a l ih =>
    rw [List.forall_mem_cons] at h
    rw [List.mapM_cons, h.1, ih h.2]
    rfl

end Fold
