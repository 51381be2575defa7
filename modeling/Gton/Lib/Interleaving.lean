import Mathlib.Data.List.Perm.Basic

/-!
# Interleavings

The orders in which the steps of several threads can happen: each thread takes its own steps in
order, and which thread goes next is open.
-/

namespace Gton.Lib

variable {α : Type}

inductive Interleaves : List (List α) → List α → Prop
  | done {threads : List (List α)} (ended : ∀ thread ∈ threads, thread = []) :
      Interleaves threads []
  | step {before after : List (List α)} {x : α} {rest run : List α}
      (later : Interleaves (before ++ rest :: after) run) :
      Interleaves (before ++ (x :: rest) :: after) (x :: run)

theorem Interleaves.perm {threads : List (List α)} {run : List α} (h : Interleaves threads run) :
    run.Perm threads.flatten := by
  induction h with
  | done ended =>
    rw [List.flatten_eq_nil_iff.mpr ended]
  | @step before after x rest run _ ih =>
    have moved : (before ++ (x :: rest) :: after).flatten.Perm
        (x :: (before ++ rest :: after).flatten) := by
      simp only [List.flatten_append, List.flatten_cons, List.cons_append]
      exact List.perm_middle
    exact (List.Perm.cons x ih).trans moved.symm

end Gton.Lib
