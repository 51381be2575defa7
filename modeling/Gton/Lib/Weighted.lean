import Mathlib.Algebra.GroupWithZero.Nat
import Mathlib.Algebra.Order.BigOperators.Group.List
import Mathlib.Algebra.Order.Group.Nat
import Mathlib.Data.List.GetD

/-!
# Drawing by weight without putting back

Items with weights lie one after the other on a line; what is drawn leaves the line. A position
on the shortened line is found either by walking over what is left, or by shifting it over the
holes of what was taken and looking it up on the full line. Both find the same item.
-/

namespace Gton.Lib.Weighted

open List

/-- Weights, each with a mark that says whether it was taken. -/
abbrev Slots := List (Nat × Bool)

/-- The weight that is left. -/
def remaining : Slots → Nat
  | [] => 0
  | (w, taken) :: rest => (if taken then 0 else w) + remaining rest

/-- The item at a position of what is left. -/
def locate : Slots → Nat → Nat
  | [], _ => 0
  | (w, taken) :: rest, p =>
    if taken then locate rest p + 1 else if p < w then 0 else locate rest (p - w) + 1

/-- Take an item. -/
def take : Slots → Nat → Slots
  | [], _ => []
  | (w, _) :: rest, 0 => (w, true) :: rest
  | x :: rest, i + 1 => x :: take rest i

/-- Where an item starts on the full line. -/
def start (s : Slots) (i : Nat) : Nat := ((s.take i).map (·.1)).sum

theorem start_succ (x : Nat × Bool) (rest : Slots) (i : Nat) :
    start (x :: rest) (i + 1) = x.1 + start rest i := by
  simp [start]

variable {s : Slots} {w i p : Nat} {h : Hole} {hs : List Hole} {after : Hole → Bool}

theorem remaining_take (item : s[i]? = some (w, false)) :
    remaining (take s i) + w = remaining s := by
  induction s generalizing i with
  | nil => cases item
  | cons x rest ih =>
    cases i with
    | zero =>
      cases item
      simp [take, remaining]
      omega
    | succ i =>
      have tail := ih item
      simp only [take, remaining]
      omega

theorem weights_take (s : Slots) (i : Nat) : (take s i).map (·.1) = s.map (·.1) := by
  induction s generalizing i with
  | nil => rfl
  | cons x rest ih =>
    cases i with
    | zero => rfl
    | succ i => exact congrArg (x.1 :: ·) (ih i)

/-- Nothing taken yet. -/
def fresh (weights : List Nat) : Slots := weights.map (·, false)

theorem remaining_fresh (weights : List Nat) : remaining (fresh weights) = weights.sum := by
  induction weights with
  | nil => rfl
  | cons w ws ih =>
    exact congrArg (w + ·) ih

/-! ## Holes -/

structure Hole where
  start : Nat
  weight : Nat
  deriving DecidableEq

/-- Shift a position over the holes before it. -/
def shift : List Hole → Nat → Nat
  | [], p => p
  | h :: hs, p => if p < h.start then p else shift hs (p + h.weight)

/-- The holes of what was taken, on a line that starts at `off`. -/
def holesFrom (off : Nat) : Slots → List Hole
  | [] => []
  | (w, taken) :: rest =>
    if taken then ⟨off, w⟩ :: holesFrom (off + w) rest else holesFrom (off + w) rest

theorem holesFrom_fresh (off : Nat) (weights : List Nat) : holesFrom off (fresh weights) = [] := by
  induction weights generalizing off with
  | nil => rfl
  | cons w ws ih => exact ih (off + w)

theorem le_start_of_mem_holesFrom {off : Nat} (mem : h ∈ holesFrom off s) : off ≤ h.start := by
  induction s generalizing off with
  | nil => cases mem
  | cons x rest ih =>
    unfold holesFrom at mem
    split at mem
    · rcases mem_cons.mp mem with rfl | mem
      · exact Nat.le_refl off
      · have := ih mem
        omega
    · have := ih mem
      omega

theorem shift_of_lt (above : ∀ h ∈ hs, p < h.start) : shift hs p = p := by
  cases hs with
  | nil => rfl
  | cons h hs => exact if_pos (above h (.head _))

/-- The item at a position of what is left is the one the shifted position falls on. -/
theorem shift_holesFrom : ∀ (off : Nat) {p : Nat}, p < remaining s →
    ∃ w, s[locate s p]? = some (w, false) ∧
      off + start s (locate s p) ≤ shift (holesFrom off s) (off + p) ∧
      shift (holesFrom off s) (off + p) < off + start s (locate s p) + w := by
  induction s with
  | nil =>
    intro off p lt
    simp [remaining] at lt
  | cons x rest ih =>
    obtain ⟨w, taken⟩ := x
    intro off p lt
    cases taken with
    | true =>
      -- a hole: the position moves over it
      have lt' : p < remaining rest := by simpa [remaining] using lt
      obtain ⟨w', item, low, high⟩ := ih (off + w) lt'
      refine ⟨w', by simpa [locate] using item, ?_⟩
      have moved : shift (holesFrom off ((w, true) :: rest)) (off + p) =
          shift (holesFrom (off + w) rest) (off + w + p) := by
        have past : ¬ off + p < off := by omega
        simp only [holesFrom, if_true, shift, if_neg past]
        rw [Nat.add_right_comm]
      simp only [locate, if_true, start_succ]
      omega
    | false =>
      have holes : holesFrom off ((w, false) :: rest) = holesFrom (off + w) rest := rfl
      rw [holes]
      by_cases here : p < w
      · refine ⟨w, by simp [locate, here], ?_⟩
        have stays : shift (holesFrom (off + w) rest) (off + p) = off + p := by
          apply shift_of_lt
          intro h mem
          have := le_start_of_mem_holesFrom mem
          omega
        simp only [locate, Bool.false_eq_true, if_false, if_pos here]
        simp [start]
        omega
      · have lt' : p - w < remaining rest := by
          simp [remaining] at lt
          omega
        obtain ⟨w', item, low, high⟩ := ih (off + w) lt'
        have same : off + w + (p - w) = off + p := by omega
        rw [same] at low high
        refine ⟨w', by simpa [locate, here] using item, ?_⟩
        simp only [locate, Bool.false_eq_true, if_false, if_neg here, start_succ]
        omega

/-- Put a hole before the first one that `after` holds of. -/
def insertHole (after : Hole → Bool) (h : Hole) (hs : List Hole) : List Hole :=
  hs.insertIdx (hs.findIdx after) h

theorem insertHole_of_after
    (first : ∀ h' ∈ hs, after h' = true) : insertHole after h hs = h :: hs := by
  cases hs with
  | nil => rfl
  | cons h' hs =>
    unfold insertHole
    rw [findIdx_cons, first h' (.head _)]
    rfl

theorem insertHole_cons {h' : Hole} (behind : after h' = false) :
    insertHole after h (h' :: hs) = h' :: insertHole after h hs := by
  unfold insertHole
  rw [findIdx_cons, behind]
  rfl

/-- Taking an item opens its hole at the place the order by start gives it. -/
theorem insertHole_holesFrom :
    ∀ {off i w : Nat}, s[i]? = some (w, false) → (∀ x ∈ s, 0 < x.1) →
    (∀ h : Hole, off + start s i < h.start → after h = true) →
    (∀ h : Hole, h.start < off + start s i → after h = false) →
    insertHole after ⟨off + start s i, w⟩ (holesFrom off s) = holesFrom off (take s i) := by
  induction s with
  | nil =>
    intro off i w item
    cases item
  | cons x rest ih =>
    obtain ⟨w', taken⟩ := x
    intro off i w item pos above below
    have pos' : 0 < w' := pos _ (.head _)
    cases i with
    | zero =>
      cases item
      have all : ∀ h ∈ holesFrom (off + w') rest, after h = true := by
        intro h mem
        have := le_start_of_mem_holesFrom mem
        apply above
        simp [start]
        omega
      simp only [holesFrom, Bool.false_eq_true, if_false, take, if_true]
      rw [insertHole_of_after all]
      simp [start]
    | succ i =>
      have at_ : off + start ((w', taken) :: rest) (i + 1) = off + w' + start rest i := by
        exact (Nat.add_assoc off w' _).symm
      rw [at_] at above below ⊢
      have tail := ih item (fun x mem => pos x (.tail _ mem)) above below
      cases taken with
      | true =>
        simp only [holesFrom, if_true, take]
        rw [insertHole_cons (below _ (by simp only; omega)), tail]
      | false =>
        exact tail

/-! ## Drawing several -/

/-- How many items are left. -/
def untaken (s : Slots) : Nat := s.countP fun x => !x.2

theorem untaken_fresh (weights : List Nat) : untaken (fresh weights) = weights.length := by
  unfold untaken fresh
  rw [countP_map, countP_eq_length.mpr]
  intro w mem
  rfl

theorem remaining_pos (positive : ∀ x ∈ s, 0 < x.1) (left : 0 < untaken s) : 0 < remaining s := by
  induction s with
  | nil => simp [untaken] at left
  | cons x rest ih =>
    obtain ⟨w, taken⟩ := x
    have first : 0 < w := positive _ (.head _)
    cases taken with
    | true =>
      have := ih (fun x mem => positive x (.tail _ mem)) (by simpa [untaken] using left)
      simpa [remaining] using this
    | false =>
      simp only [remaining, Bool.false_eq_true, if_false]
      omega

theorem untaken_take (item : s[i]? = some (w, false)) : untaken (take s i) + 1 = untaken s := by
  induction s generalizing i with
  | nil => cases item
  | cons x rest ih =>
    cases i with
    | zero =>
      cases item
      simp [take, untaken]
    | succ i =>
      have tail := ih item
      unfold untaken at tail ⊢
      rw [take, countP_cons, countP_cons]
      omega

/-- What is left of the weights `ws` has `count` items to draw. -/
structure Drawable (ws : List Nat) (s : Slots) (count : Nat) : Prop where
  weights : s.map (·.1) = ws
  positive : ∀ w ∈ ws, 0 < w
  enough : count ≤ untaken s

namespace Drawable

variable {ws : List Nat} {s : Slots} {count : Nat}

theorem slots_positive (h : Drawable ws s count) : ∀ x ∈ s, 0 < x.1 := by
  intro x mem
  apply h.positive
  rw [← h.weights]
  exact mem_map_of_mem mem

theorem pos (h : Drawable ws s (count + 1)) : 0 < remaining s :=
  remaining_pos h.slots_positive (Nat.lt_of_lt_of_le (Nat.succ_pos count) h.enough)

theorem next (h : Drawable ws s (count + 1)) (item : s[i]? = some (w, false)) :
    Drawable ws (take s i) count where
  weights := (weights_take s i).trans h.weights
  positive := h.positive
  enough := by
    have := untaken_take item
    have := h.enough
    omega

theorem length (h : Drawable ws s count) : s.length = ws.length := by
  rw [← h.weights, length_map]

theorem start_eq (h : Drawable ws s count) (i : Nat) : start s i = (ws.take i).sum := by
  rw [start, map_take, h.weights]

theorem getD_weights (h : Drawable ws s count) {taken : Bool}
    (item : s[i]? = some (w, taken)) : ws.getD i 0 = w := by
  rw [← h.weights, getD_eq_getElem?_getD, getElem?_map, item]
  rfl

/-- The shifted position is behind the starts of the item and of those before it. -/
theorem shift_spans (h : Drawable ws s count) (lt : p < remaining s) (j : Nat) :
    (ws.take j).sum ≤ shift (holesFrom 0 s) p ↔ j ≤ locate s p := by
  obtain ⟨w, item, low, high⟩ := shift_holesFrom 0 lt
  simp only [Nat.zero_add, h.start_eq] at low high
  have mono := monotone_sum_take ws
  have there : ws[locate s p]? = some w := by
    rw [← h.weights, getElem?_map, item]
    rfl
  have next : (ws.take (locate s p + 1)).sum = (ws.take (locate s p)).sum + w := by
    rw [take_add_one, there]
    simp
  constructor
  · intro le
    by_contra above
    have := mono (Nat.lt_of_not_le above)
    simp only [Nat.succ_eq_add_one] at this
    omega
  · intro le
    exact (mono le).trans low

theorem item (h : Drawable ws s count) (lt : p < remaining s) :
    ∃ w, s[locate s p]? = some (w, false) ∧ locate s p < ws.length ∧
      ws.getD (locate s p) 0 = w ∧ remaining s - w = remaining (take s (locate s p)) := by
  obtain ⟨w, item, -⟩ := shift_holesFrom 0 lt
  refine ⟨w, item, ?_, h.getD_weights item, ?_⟩
  · rw [← h.length]
    exact (List.getElem?_eq_some_iff.mp item).1
  · have := remaining_take item
    omega

theorem insertHole_eq (h : Drawable ws s count) (item : s[i]? = some (w, false))
    (after : Hole → Bool) (above : ∀ h' : Hole, start s i < h'.start → after h' = true)
    (below : ∀ h' : Hole, h'.start < start s i → after h' = false) :
    insertHole after ⟨start s i, w⟩ (holesFrom 0 s) = holesFrom 0 (take s i) := by
  have opened : insertHole after ⟨0 + start s i, w⟩ (holesFrom 0 s) = holesFrom 0 (take s i) :=
    insertHole_holesFrom item h.slots_positive (by rwa [Nat.zero_add]) (by rwa [Nat.zero_add])
  rwa [Nat.zero_add] at opened

theorem of_fresh (positive : ∀ w ∈ ws, 0 < w) (enough : count ≤ ws.length) :
    Drawable ws (fresh ws) count where
  weights := by
    rw [fresh, map_map]
    exact map_id ws
  positive := positive
  enough := by rwa [untaken_fresh]

end Drawable

end Gton.Lib.Weighted
