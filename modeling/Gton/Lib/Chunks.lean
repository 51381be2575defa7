import Mathlib.Data.List.Basic

/-!
# Lists in chunks

A list that only grows at its end, kept in chunks of a fixed size.
-/

namespace Gton.Lib.Chunks

open List

variable {α : Type} {size : Nat} {full chunks : List (List α)} {x : α} {last : List α}

/-- Append an item, to a new chunk if the last one is full. -/
def push (size : Nat) (chunks : List (List α)) (x : α) : List (List α) :=
  match chunks.getLast? with
  | none => [[x]]
  | some last =>
    if last.length = size then chunks ++ [[x]] else chunks.dropLast ++ [last ++ [x]]

/-- All chunks but the last are full. -/
def Packed (size : Nat) (chunks : List (List α)) : Prop :=
  chunks = [] ∨ ∃ full last, chunks = full ++ [last] ∧ (∀ c ∈ full, c.length = size) ∧
    last.length ≤ size

theorem push_append :
    push size (full ++ [last]) x =
      if last.length = size then full ++ [last] ++ [[x]] else full ++ [last ++ [x]] := by
  simp [push]

theorem flatten_push : (push size chunks x).flatten = chunks.flatten ++ [x] := by
  rcases eq_nil_or_concat chunks with rfl | ⟨full, last, rfl⟩
  · rfl
  · rw [concat_eq_append, push_append]
    split <;> simp

theorem Packed.push (pos : 0 < size) (h : Packed size chunks) :
    Packed size (push size chunks x) := by
  rcases h with rfl | ⟨full, last, rfl, whole, fits⟩
  · exact .inr ⟨[], [x], rfl, by simp, pos⟩
  · rw [push_append]
    split
    next isFull =>
      refine .inr ⟨full ++ [last], [x], rfl, ?_, pos⟩
      intro c mem
      rcases mem_append.mp mem with old | new
      · exact whole c old
      · rw [mem_singleton.mp new]
        exact isFull
    · refine .inr ⟨full, last ++ [x], rfl, whole, ?_⟩
      rw [length_append, length_singleton]
      omega

theorem getElem?_full (pos : 0 < size) (fits : last.length ≤ size) :
    (∀ c ∈ full, c.length = size) → ∀ {i : Nat},
    ((full ++ [last])[i / size]?.bind fun chunk => chunk[i % size]?) =
      (full ++ [last]).flatten[i]? := by
  induction full with
  | nil =>
    intro _ i
    simp only [nil_append, flatten_cons, flatten_nil, append_nil]
    by_cases inside : i < size
    · rw [Nat.div_eq_of_lt inside, Nat.mod_eq_of_lt inside]
      rfl
    · have next : 0 < i / size := Nat.div_pos (by omega) pos
      have past : [last][i / size]? = none := by
        apply getElem?_eq_none
        exact next
      rw [past, getElem?_eq_none (by omega)]
      rfl
  | cons c full ih =>
    intro whole i
    have head := whole c mem_cons_self
    by_cases inside : i < size
    · rw [Nat.div_eq_of_lt inside, Nat.mod_eq_of_lt inside, cons_append, flatten_cons,
        getElem?_append_left (by omega)]
      rfl
    · obtain ⟨j, rfl⟩ := Nat.exists_eq_add_of_le (Nat.le_of_not_lt inside)
      rw [Nat.add_div_left j pos, Nat.add_mod_left, cons_append, flatten_cons,
        getElem?_append_right (by omega), head, Nat.add_sub_cancel_left,
        getElem?_cons_succ]
      exact ih fun c mem => whole c (mem_cons_of_mem _ mem)

theorem Packed.getElem? (pos : 0 < size) (h : Packed size chunks)
    (i : Nat) : (chunks[i / size]?.bind fun chunk => chunk[i % size]?) = chunks.flatten[i]? := by
  rcases h with rfl | ⟨full, last, rfl, whole, fits⟩
  · simp
  · exact getElem?_full pos fits whole

end Gton.Lib.Chunks
