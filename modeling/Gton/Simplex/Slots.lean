import Gton.Simplex.Types

/-!
# Per-slot state and the ordered set of skip-run ends

`SlotMap` keeps one state per slot and forgets everything below the first non-finalized
slot. Reading a slot that was never written gives a fresh one: the source creates it on
access, which no later read can tell apart from this.
-/

namespace Gton.Simplex

/-- The slots `a, a+1, ..., b-1` a loop `for i := a; i < b; i++` visits. -/
def slotRange (a b : UInt32) : List UInt32 :=
  (List.range (b.toNat - a.toNat)).map fun k => a + UInt32.ofNat k

/-- `slotMap`: `top` is one past the highest slot ever written. -/
structure SlotMap (T : Type) where
  firstNonFinalized : UInt32
  slots : UInt32 → Option T
  top : UInt32

namespace SlotMap

variable {T : Type}

def empty : SlotMap T := ⟨0, fun _ => none, 0⟩

/-- `peek`: the state without creating it. -/
def peek (m : SlotMap T) (slot : UInt32) : Option T :=
  if slot < m.firstNonFinalized then none else m.slots slot

def set (m : SlotMap T) (slot : UInt32) (s : T) : SlotMap T :=
  { m with
    slots := Function.update m.slots slot (some s)
    top := if slot + 1 > m.top then slot + 1 else m.top }

/-- Prune everything up to and including `slot`; `slot + 1` is `uint32` arithmetic. -/
def notifyFinalized (m : SlotMap T) (slot : UInt32) : SlotMap T :=
  if slot + 1 ≤ m.firstNonFinalized then m
  else
    { m with
      firstNonFinalized := slot + 1
      slots := fun k => if k < slot + 1 then none else m.slots k }

/-- The tracked half-open slot range. -/
def interval (m : SlotMap T) : UInt32 × UInt32 :=
  (m.firstNonFinalized, if m.top > m.firstNonFinalized then m.top else m.firstNonFinalized)

section
variable [Inhabited T] {m : SlotMap T} {s : T} {k j : UInt32} {P : UInt32 → T → Prop}

/-- `at`: no state for a pruned slot, a fresh one for a slot not seen yet. -/
def get? (m : SlotMap T) (slot : UInt32) : Option T :=
  if slot < m.firstNonFinalized then none else some ((m.slots slot).getD default)

/-- Apply `f` to the state of a live slot. -/
def modify (m : SlotMap T) (slot : UInt32) (f : T → T) : SlotMap T :=
  match m.get? slot with
  | none => m
  | some s => m.set slot (f s)

theorem get?_eq_none : m.get? k = none ↔ k < m.firstNonFinalized := by
  unfold get?
  split <;> simp_all

theorem get?_of_le (h : m.firstNonFinalized ≤ k) : m.get? k = some ((m.slots k).getD default) := by
  unfold get?
  rw [if_neg (UInt32.not_lt.mpr h)]

theorem le_of_get? (h : m.get? k = some s) : m.firstNonFinalized ≤ k := by
  unfold get? at h
  split at h
  · cases h
  next hk =>
    exact UInt32.not_lt.mp hk

theorem get?_set :
    (m.set k s).get? j =
      if j < m.firstNonFinalized then none else if j = k then some s else m.get? j := by
  unfold get? set
  by_cases h : j < m.firstNonFinalized
  · simp [h]
  · by_cases hj : j = k
    · subst hj; simp [h]
    · simp [h, hj]

theorem get?_set_self (h : m.firstNonFinalized ≤ k) : (m.set k s).get? k = some s := by
  rw [get?_set, if_neg (UInt32.not_lt.mpr h), if_pos rfl]

theorem get?_set_ne (h : j ≠ k) : (m.set k s).get? j = m.get? j := by
  rw [get?_set, if_neg h]
  split
  next hj =>
    exact (get?_eq_none.mpr hj).symm
  · rfl

omit [Inhabited T] in
theorem firstNonFinalized_notifyFinalized (m : SlotMap T) (k : UInt32) :
    (m.notifyFinalized k).firstNonFinalized =
      if k + 1 ≤ m.firstNonFinalized then m.firstNonFinalized else k + 1 := by
  unfold notifyFinalized
  split <;> rfl

theorem get?_notifyFinalized (h : (m.notifyFinalized k).get? j = some s) : m.get? j = some s := by
  unfold notifyFinalized at h
  split at h
  · exact h
  · have hj := le_of_get? h
    have hm : m.firstNonFinalized ≤ j := by grind
    rw [get?_of_le hj] at h
    rw [get?_of_le hm, ← h]
    dsimp only
    rw [if_neg (by grind)]

theorem get?_notifyFinalized_of_le (h : (m.notifyFinalized k).firstNonFinalized ≤ j) :
    (m.notifyFinalized k).get? j = m.get? j := by
  rw [get?_notifyFinalized (get?_of_le h), get?_of_le h]

theorem getD_get?_notifyFinalized (m : SlotMap T) (k : UInt32) :
    (fun s => ((m.notifyFinalized k).get? s).getD default) = fun s =>
      if s < (m.notifyFinalized k).firstNonFinalized then default else (m.get? s).getD default := by
  funext s
  split
  next below =>
    rw [get?_eq_none.mpr below, Option.getD_none]
  next live =>
    rw [get?_notifyFinalized_of_le (UInt32.not_lt.mp live)]

/-- A property of every live slot, also of those not seen yet. -/
def Each (m : SlotMap T) (P : UInt32 → T → Prop) : Prop := ∀ k s, m.get? k = some s → P k s

theorem Each.set (h : m.Each P) (hs : P k s) : (m.set k s).Each P := by
  intro j t ht
  rw [get?_set] at ht
  split at ht
  · cases ht
  · split at ht
    next here =>
      cases ht
      exact here ▸ hs
    · exact h j t ht

theorem Each.modify (h : m.Each P) {f : T → T} (keeps : ∀ s, P k s → P k (f s)) :
    (m.modify k f).Each P := by
  unfold SlotMap.modify
  split
  · exact h
  next s here =>
    exact h.set (keeps s (h k s here))

theorem Each.notifyFinalized (h : m.Each P) (k : UInt32) : (m.notifyFinalized k).Each P :=
  fun j s hs => h j s (get?_notifyFinalized hs)

end

end SlotMap

/-! ## The ordered set of run ends -/

/-- `lowerBound`: the first element not below `x`. The source searches by bisection in
this ascending list. -/
def lowerBound (v : List UInt32) (x : UInt32) : Option UInt32 :=
  v.find? fun y => decide (x ≤ y)

def insertSorted (x : UInt32) : List UInt32 → List UInt32
  | [] => [x]
  | y :: ys => if y = x then y :: ys else if x ≤ y then x :: y :: ys else y :: insertSorted x ys

def eraseSorted (v : List UInt32) (x : UInt32) : List UInt32 := v.filter fun y => decide (y ≠ x)

/-- Remove all elements up to and including `x`. -/
def eraseUpTo (v : List UInt32) (x : UInt32) : List UInt32 := v.filter fun y => decide (x < y)

variable {v : List UInt32} {y x : UInt32}

theorem mem_insertSorted : y ∈ insertSorted x v ↔ y = x ∨ y ∈ v := by
  induction v with
  | nil => simp [insertSorted]
  | cons z zs ih =>
    unfold insertSorted
    split
    · rename_i h; subst h; simp
    · split
      · simp
      · grind

/-- Ascending without repetition. -/
abbrev Ascending (v : List UInt32) : Prop := v.Pairwise (· < ·)

theorem Ascending.insertSorted (h : Ascending v) (x : UInt32) : Ascending (insertSorted x v) := by
  induction v with
  | nil => exact List.pairwise_singleton _ _
  | cons y ys ih =>
    obtain ⟨first, tail⟩ := List.pairwise_cons.mp h
    unfold Gton.Simplex.insertSorted
    split
    · exact h
    · split
      · refine List.pairwise_cons.mpr ⟨fun z hz => ?_, h⟩
        rcases List.mem_cons.mp hz with rfl | hz
        · grind
        · grind
      · refine List.pairwise_cons.mpr ⟨fun z hz => ?_, ih tail⟩
        rcases mem_insertSorted.mp hz with rfl | hz
        · grind
        · exact first z hz

theorem Ascending.eraseSorted (h : Ascending v) (x : UInt32) :
    Ascending (eraseSorted v x) := h.filter _

theorem Ascending.eraseUpTo (h : Ascending v) (x : UInt32) : Ascending (eraseUpTo v x) := h.filter _

/-- In an ascending list the found bound is the least element not below `x`. -/
theorem lowerBound_le (h : Ascending v) {z : UInt32}
    (hy : lowerBound v x = some y) (hz : z ∈ v) (hx : x ≤ z) : y ≤ z := by
  induction v with
  | nil => cases hz
  | cons w ws ih =>
    obtain ⟨first, tail⟩ := List.pairwise_cons.mp h
    unfold lowerBound at hy
    rw [List.find?_cons] at hy
    split at hy
    · cases hy
      rcases List.mem_cons.mp hz with rfl | hz
      · exact UInt32.le_refl _
      · exact UInt32.le_of_lt (first z hz)
    next below =>
      rcases List.mem_cons.mp hz with rfl | hz
      · simp [hx] at below
      · exact ih tail hy hz

theorem mem_eraseSorted : y ∈ eraseSorted v x ↔ y ∈ v ∧ y ≠ x := by
  simp [eraseSorted]

theorem mem_eraseUpTo : y ∈ eraseUpTo v x ↔ y ∈ v ∧ x < y := by
  simp [eraseUpTo]

end Gton.Simplex
