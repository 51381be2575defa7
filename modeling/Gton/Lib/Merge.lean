import Mathlib.Data.List.Sort
import Mathlib.Data.List.Perm.Basic

/-!
# Merging sorted streams through a heap

Several cursors, each over a sorted list, are drained through a heap of cursors ordered by their
current element. What the heap does inside is a parameter: `Heap` is the contract of a binary
heap over a slice. The pages a merge is drained in do not change what comes out.
-/

namespace Gton.Lib.Merge

open List

variable {C α β : Type} [LinearOrder β]

/-- A cursor type: the current element, the cursor after it, and all that is still to come. -/
structure Reader (C α : Type) where
  current : C → α
  advance : C → Option C
  items : C → List α
  unfold : ∀ c, items c = current c :: ((advance c).map items).getD []

/-- A heap over a slice whose least element is at the front: building one, restoring it after
the front changed, and taking the front out. -/
structure Heap (C : Type) (key : C → β) where
  Valid : List C → Prop
  init : List C → List C
  fix : List C → List C
  pop : List C → List C
  least : ∀ {c rest}, Valid (c :: rest) → ∀ d ∈ rest, key c ≤ key d
  init_valid : ∀ l, Valid (init l)
  init_perm : ∀ l, (init l).Perm l
  fix_valid : ∀ {c d rest}, Valid (c :: rest) → Valid (fix (d :: rest))
  fix_perm : ∀ l, (fix l).Perm l
  pop_valid : ∀ {l}, Valid l → Valid (pop l)
  pop_perm : ∀ l, (pop l).Perm l.tail

/-- The contract is met by a list that is kept sorted. -/
def Heap.sorted (key : C → β) : Heap C key where
  Valid l := l.Pairwise (key · ≤ key ·)
  init l := l.insertionSort (key · ≤ key ·)
  fix l := l.insertionSort (key · ≤ key ·)
  pop l := l.tail
  least h := (List.pairwise_cons.mp h).1
  init_valid _ := List.pairwise_insertionSort _ _
  init_perm l := List.perm_insertionSort _ l
  fix_valid _ := List.pairwise_insertionSort _ _
  fix_perm l := List.perm_insertionSort _ l
  pop_valid h := h.tail
  pop_perm _ := List.Perm.refl _

section Drain

variable (s : Reader C α) {key : C → β} (heap : Heap C key) {rest cursors : List C} {top : C}
  {n : Nat}

/-- The heap after its front was taken. -/
def after (top : C) (rest : List C) : List C :=
  match s.advance top with
  | some c => heap.fix (c :: rest)
  | none => heap.pop (top :: rest)

/-- Take up to that many elements. -/
def drain : Nat → List C → List α × List C
  | 0, cursors => ([], cursors)
  | _ + 1, [] => ([], [])
  | n + 1, top :: rest =>
    let (taken, left) := drain n (after s heap top rest)
    (s.current top :: taken, left)

/-- All that is still to come. -/
def pending (cursors : List C) : List α := cursors.flatMap s.items

theorem after_perm (top : C) (rest : List C) :
    (s.current top :: pending s (after s heap top rest)).Perm (pending s (top :: rest)) := by
  unfold after pending
  rw [flatMap_cons, s.unfold top, cons_append]
  apply List.Perm.cons
  cases s.advance top with
  | some c =>
    exact ((heap.fix_perm (c :: rest)).flatMap_right s.items).trans (by simp)
  | none =>
    exact ((heap.pop_perm (top :: rest)).flatMap_right s.items).trans (by simp)

theorem after_valid (valid : heap.Valid (top :: rest)) : heap.Valid (after s heap top rest) := by
  unfold after
  split
  · exact heap.fix_valid valid
  · exact heap.pop_valid valid

theorem drain_perm (n : Nat) (cursors : List C) :
    ((drain s heap n cursors).1 ++ pending s (drain s heap n cursors).2).Perm
      (pending s cursors) := by
  induction n generalizing cursors with
  | zero => exact List.Perm.refl _
  | succ n ih =>
    cases cursors with
    | nil => exact List.Perm.refl _
    | cons top rest =>
      have step := (ih (after s heap top rest)).cons (s.current top)
      exact step.trans (after_perm s heap top rest)

theorem drain_add (a b : Nat) (cursors : List C) :
    drain s heap (a + b) cursors =
      ((drain s heap a cursors).1 ++ (drain s heap b (drain s heap a cursors).2).1,
        (drain s heap b (drain s heap a cursors).2).2) := by
  induction a generalizing cursors with
  | zero => simp [drain]
  | succ a ih =>
    cases cursors with
    | nil => cases b <;> simp [drain]
    | cons top rest =>
      rw [Nat.add_right_comm]
      simp only [drain, ih, cons_append]

theorem drain_all (enough : (pending s cursors).length ≤ n) : (drain s heap n cursors).2 = [] := by
  induction n generalizing cursors with
  | zero =>
    cases cursors with
    | nil => rfl
    | cons top rest =>
      rw [pending, flatMap_cons, s.unfold top] at enough
      simp at enough
  | succ n ih =>
    cases cursors with
    | nil => rfl
    | cons top rest =>
      apply ih
      have := (after_perm s heap top rest).length_eq
      rw [length_cons] at this
      omega

theorem drain_all_perm (enough : (pending s cursors).length ≤ n) :
    (drain s heap n cursors).1.Perm (pending s cursors) := by
  have all := drain_perm s heap n cursors
  rwa [drain_all s heap enough, pending, flatMap_nil, append_nil] at all

theorem drain_eq_take {N : Nat} (enough : (pending s cursors).length ≤ N)
    (n : Nat) : (drain s heap n cursors).1 = (drain s heap N cursors).1.take n := by
  induction n generalizing N cursors with
  | zero => rfl
  | succ n ih =>
    cases cursors with
    | nil => cases N <;> rfl
    | cons top rest =>
      have same := (after_perm s heap top rest).length_eq
      rw [length_cons] at same
      cases N with
      | zero => omega
      | succ N =>
        have rest' : (pending s (after s heap top rest)).length ≤ N := by omega
        exact congrArg (s.current top :: ·) (ih rest')

theorem drain_left : (drain s heap n cursors).2 = [] ↔ (pending s cursors).length ≤ n := by
  refine ⟨fun empty => ?_, drain_all s heap⟩
  have len := (drain_perm s heap n cursors).length_eq
  rw [empty] at len
  have short : (drain s heap n cursors).1.length ≤ n := by
    rw [drain_eq_take s heap (le_refl _) n]
    exact length_take_le _ _
  simp only [pending, flatMap_nil, append_nil] at len
  unfold pending
  omega

variable {rank : α → β} {s} {heap}

theorem front_least (valid : heap.Valid (top :: rest)) (keyed : ∀ c, key c = rank (s.current c))
    (sorted : ∀ c ∈ top :: rest, (s.items c).Pairwise (rank · ≤ rank ·)) :
    ∀ a ∈ pending s (top :: rest), rank (s.current top) ≤ rank a := by
  intro a mem
  obtain ⟨c, hc, ha⟩ := mem_flatMap.mp mem
  have least : rank (s.current top) ≤ rank (s.current c) := by
    rcases mem_cons.mp hc with rfl | hc
    · exact le_refl _
    · rw [← keyed, ← keyed]
      exact heap.least valid c hc
  have order := sorted c hc
  rw [s.unfold c] at ha order
  rcases mem_cons.mp ha with rfl | ha
  · exact least
  · exact le_trans least ((pairwise_cons.mp order).1 a ha)

theorem after_sorted (sorted : ∀ c ∈ top :: rest, (s.items c).Pairwise (rank · ≤ rank ·)) :
    ∀ c ∈ after s heap top rest, (s.items c).Pairwise (rank · ≤ rank ·) := by
  intro c mem
  unfold after at mem
  split at mem
  next d next =>
    rcases mem_cons.mp ((heap.fix_perm _).subset mem) with rfl | mem
    · have order := sorted top (.head _)
      rw [s.unfold top, next] at order
      exact (pairwise_cons.mp order).2
    · exact sorted c (.tail _ mem)
  · exact sorted c (.tail _ ((heap.pop_perm _).subset mem))

theorem drain_sorted (keyed : ∀ c, key c = rank (s.current c)) (n : Nat)
    (valid : heap.Valid cursors) (sorted : ∀ c ∈ cursors, (s.items c).Pairwise (rank · ≤ rank ·)) :
    (drain s heap n cursors).1.Pairwise (rank · ≤ rank ·) := by
  induction n generalizing cursors with
  | zero => exact .nil
  | succ n ih =>
    cases cursors with
    | nil => exact .nil
    | cons top rest =>
      refine pairwise_cons.mpr ⟨?_, ih (after_valid s heap valid) (after_sorted sorted)⟩
      intro a mem
      have drained := (drain_perm s heap n (after s heap top rest)).subset
        (mem_append_left _ mem)
      have all := (after_perm s heap top rest).subset (.tail _ drained)
      exact front_least valid keyed sorted a all

end Drain

end Gton.Lib.Merge
