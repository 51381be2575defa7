import Mathlib.Data.List.Infix
import Mathlib.Data.List.Perm.Basic

/-!
# Binary tries

A trie keeps values at bit paths. Two questions are asked of it for a path: which values lie on the
way down, and which ones lie on the way or below its end.
-/

namespace Gton.Lib

open List

inductive BitTrie (α : Type) where
  | nil
  | node (values : List α) (zero one : BitTrie α)
  deriving DecidableEq

namespace BitTrie

variable {α : Type} {a x : α} {t : BitTrie α} {p q : List Bool} {b : Bool}

def values : BitTrie α → List α
  | nil => []
  | node vs _ _ => vs

/-- A missing node has no children. -/
def child : BitTrie α → Bool → BitTrie α
  | nil, _ => nil
  | node _ zero _, false => zero
  | node _ _ one, true => one

/-- Add a value at the end of a path, with the nodes that are missing on the way. -/
def insert (a : α) : List Bool → BitTrie α → BitTrie α
  | [], t => node (t.values ++ [a]) (t.child false) (t.child true)
  | false :: p, t => node t.values (insert a p (t.child false)) (t.child true)
  | true :: p, t => node t.values (t.child false) (insert a p (t.child true))

/-- The values on the way down a path, its end included. -/
def along : BitTrie α → List Bool → List α
  | t, [] => t.values
  | t, b :: p => t.values ++ along (t.child b) p

/-- Every value of the trie. -/
def all : BitTrie α → List α
  | nil => []
  | node vs zero one => vs ++ all zero ++ all one

/-- The values on the way down a path and those below its end. -/
def under : BitTrie α → List Bool → List α
  | t, [] => t.all
  | t, b :: p => t.values ++ under (t.child b) p

theorem values_insert : (insert a p t).values = t.values ++ if p = [] then [a] else [] := by
  cases p with
  | nil => rfl
  | cons b p => cases b <;> simp [insert, values]

theorem child_insert_nil : (insert a [] t).child b = t.child b := by
  cases b <;> rfl

theorem child_insert_cons {c : Bool} :
    (insert a (c :: p) t).child b = if c = b then insert a p (t.child b) else t.child b := by
  cases b <;> cases c <;> rfl

@[simp] theorem along_nil : along (nil : BitTrie α) p = [] := by
  induction p with
  | nil => rfl
  | cons b p ih => exact ih

@[simp] theorem under_nil : under (nil : BitTrie α) p = [] := by
  induction p with
  | nil => rfl
  | cons b p ih => exact ih

theorem all_eq : t.all = t.values ++ (t.child false).all ++ (t.child true).all := by
  cases t <;> rfl

/-- A value is met on the way down exactly if its own path leads that way. -/
theorem along_insert : (along (insert a q t) p).Perm
    (along t p ++ if q <+: p then [a] else []) := by
  induction p generalizing q t with
  | nil =>
    simp only [along, values_insert, prefix_nil]
    exact List.Perm.refl _
  | cons b p ih =>
    cases q with
    | nil =>
      simp only [along, values_insert, child_insert_nil, nil_prefix, if_true]
      rw [append_assoc, append_assoc]
      exact List.Perm.append_left _ perm_append_comm
    | cons c q =>
      simp only [along, values_insert, child_insert_cons, cons_prefix_cons, append_assoc,
        reduceCtorEq, if_false, nil_append]
      apply List.Perm.append_left
      by_cases same : c = b
      · simpa only [same, if_true, true_and] using ih
      · simp [same]

theorem all_insert : (all (insert a q t)).Perm (all t ++ [a]) := by
  induction q generalizing t with
  | nil =>
    rw [all_eq, values_insert, child_insert_nil, child_insert_nil, @all_eq α t]
    simp only [if_true, append_assoc]
    refine List.Perm.append_left _ ?_
    calc ([a] ++ ((t.child false).all ++ (t.child true).all)).Perm
          (((t.child false).all ++ (t.child true).all) ++ [a]) := perm_append_comm
      _ = (t.child false).all ++ ((t.child true).all ++ [a]) := append_assoc ..
  | cons c q ih =>
    rw [all_eq, values_insert, child_insert_cons, child_insert_cons, @all_eq α t]
    simp only [reduceCtorEq, if_false, append_nil, append_assoc]
    refine List.Perm.append_left _ ?_
    cases c with
    | false =>
      simp only [if_true, Bool.false_eq_true, if_false]
      refine (ih.append_right _).trans ?_
      rw [append_assoc]
      exact List.Perm.append_left _ perm_append_comm
    | true =>
      simp only [Bool.true_eq_false, if_true, if_false]
      exact List.Perm.append_left _ ih

/-- A value is met on the way or below exactly if its path and the given one do not part. -/
theorem under_insert : (under (insert a q t) p).Perm
    (under t p ++ if q <+: p ∨ p <+: q then [a] else []) := by
  induction p generalizing q t with
  | nil =>
    simp only [under, nil_prefix, or_true, if_true]
    exact all_insert
  | cons b p ih =>
    cases q with
    | nil =>
      simp only [under, values_insert, child_insert_nil, nil_prefix, true_or, if_true]
      rw [append_assoc, append_assoc]
      exact List.Perm.append_left _ perm_append_comm
    | cons c q =>
      simp only [under, values_insert, child_insert_cons, cons_prefix_cons, append_assoc,
        reduceCtorEq, if_false, nil_append]
      apply List.Perm.append_left
      by_cases same : c = b
      · simpa only [same, if_true, true_and] using ih
      · simp [same, Ne.symm same]

end BitTrie

end Gton.Lib
