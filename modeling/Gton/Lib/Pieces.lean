import Mathlib.Data.List.Perm.Basic
import Mathlib.Data.List.Range

/-!
# Lists cut into pieces and dealt into rows

Pieces of a list that hold each item once give the list back, up to its order. Rows are numbered
lists to which items are appended.
-/

namespace Gton.Lib.Pieces

open List

variable {α β : Type}

section Cuts

variable {holds : β → α → Bool} {pieces : List β} {l : List α}

theorem flatMap_filter_cons (x : α) (l : List α) :
    (pieces.flatMap fun p => (x :: l).filter (holds p)).Perm
      (List.replicate (pieces.countP (holds · x)) x ++
        pieces.flatMap fun p => l.filter (holds p)) := by
  induction pieces with
  | nil => exact List.Perm.refl _
  | cons p pieces ih =>
    rw [flatMap_cons, flatMap_cons]
    cases own : holds p x with
    | false =>
      rw [countP_cons_of_neg (by simp [own]), filter_cons_of_neg (by simp [own])]
      exact (ih.append_left _).trans (perm_append_comm_assoc _ _ _)
    | true =>
      rw [countP_cons_of_pos (by simp [own]), filter_cons_of_pos own, replicate_succ,
        cons_append, cons_append]
      exact List.Perm.cons x ((ih.append_left _).trans (perm_append_comm_assoc _ _ _))

theorem flatMap_filter_perm (once : ∀ x ∈ l, pieces.countP (holds · x) = 1) :
    (pieces.flatMap fun p => l.filter (holds p)).Perm l := by
  induction l with
  | nil => simp
  | cons x l ih =>
    refine (flatMap_filter_cons x l).trans ?_
    rw [once x mem_cons_self]
    exact List.Perm.cons x (ih fun y mem => once y (mem_cons_of_mem x mem))

/-- Pieces that lie one after another, of a list in a strict order. -/
theorem flatMap_filter_eq {before : α → α → Prop} (asymm : ∀ x y, before x y → ¬ before y x)
    (once : ∀ x ∈ l, pieces.countP (holds · x) = 1) (sorted : l.Pairwise before)
    (apart : pieces.Pairwise fun p q =>
      ∀ x ∈ l, ∀ y ∈ l, holds p x = true → holds q y = true → before x y) :
    (pieces.flatMap fun p => l.filter (holds p)) = l := by
  apply List.Perm.eq_of_pairwise _ _ sorted (flatMap_filter_perm once)
  · intro x y _ _ first second
    exact absurd second (asymm x y first)
  · rw [pairwise_flatMap]
    constructor
    · intro p _
      exact sorted.sublist filter_sublist
    · apply apart.imp
      intro p q later x hx y hy
      obtain ⟨hx, own⟩ := mem_filter.mp hx
      obtain ⟨hy, other⟩ := mem_filter.mp hy
      exact later x hx y hy own other

theorem filter_flatMap_filter {piece : β → List α} {keep : β → Bool} {p : α → Bool}
    (dropped : ∀ q, keep q = false → (piece q).filter p = []) :
    ((pieces.filter keep).flatMap piece).filter p = (pieces.flatMap piece).filter p := by
  induction pieces with
  | nil => rfl
  | cons q pieces ih =>
    rw [flatMap_cons, filter_append, ← ih]
    cases own : keep q with
    | true => rw [filter_cons_of_pos own, flatMap_cons, filter_append]
    | false => rw [filter_cons_of_neg (by simp [own]), dropped q own, nil_append]

end Cuts

section Rows

variable {n : Nat} {row : Nat → List α} {a : α}

theorem modify_rows (j : Nat) : ((List.range n).map row).modify j (· ++ [a]) =
    (List.range n).map fun i => row i ++ if i = j then [a] else [] := by
  apply ext_getElem?
  intro i
  by_cases inside : i < n
  · by_cases same : j = i
    · simp [inside, same]
    · simp [inside, same, Ne.symm same]
  · simp [inside]

theorem foldl_modify_rows {js : List Nat} (distinct : js.Nodup) :
    js.foldl (fun rows j => rows.modify j (· ++ [a])) ((List.range n).map row) =
      (List.range n).map fun i => row i ++ if i ∈ js then [a] else [] := by
  induction js generalizing row with
  | nil => simp
  | cons j js ih =>
    obtain ⟨fresh, rest⟩ := nodup_cons.mp distinct
    rw [foldl_cons, modify_rows, ih rest]
    apply map_congr_left
    intro i _
    by_cases same : i = j
    · subst same
      simp [fresh]
    · simp [same]

theorem foldl_zipWith_rows {part : β → Nat → List α} {pieces : List β} :
    pieces.foldl (fun rows p => List.zipWith (· ++ ·) rows ((List.range n).map (part p)))
        ((List.range n).map row) =
      (List.range n).map fun i => row i ++ pieces.flatMap (part · i) := by
  induction pieces generalizing row with
  | nil => simp
  | cons p pieces ih =>
    rw [foldl_cons, zipWith_map, zipWith_self, ih]
    simp only [append_assoc, flatMap_cons]

end Rows

end Gton.Lib.Pieces
