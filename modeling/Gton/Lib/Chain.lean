import Mathlib.Logic.Relation

/-!
# Chains of notarized blocks

Blocks sit in slots and link to a parent in an earlier slot. A block's chain is in order when
every block below it is notarized and every slot it jumps over is skipped. If a finalized block
excludes a skip of its slot and any other notarized block there, finalized blocks lie on one
chain.
-/

namespace Gton.Chain

variable {α : Type*} (slot : α → Nat) (link : α → Option α → Prop)

/-- The evidence on blocks and slots. -/
structure Evidence (α : Type*) where
  notarized : α → Prop
  finalized : α → Prop
  skipped : Nat → Prop

/-- A chain down to the root; `link b none` is a block without parent. -/
inductive Ordered (ev : Evidence α) : α → Prop where
  | root {b : α} (top : link b none) (gap : ∀ j < slot b, ev.skipped j) : Ordered ev b
  | step {p b : α} (parent : link b (some p)) (before : slot p < slot b)
      (notarized : ev.notarized p) (gap : ∀ j, slot p < j → j < slot b → ev.skipped j)
      (below : Ordered ev p) : Ordered ev b

/-- `a` is reached from `b` along parent links. -/
def Ancestor : α → α → Prop := Relation.TransGen fun p b => link b (some p)

/-- What finalization of a block excludes in its slot. -/
structure Exclusive (ev : Evidence α) : Prop where
  notarized : ∀ a, ev.finalized a → ev.notarized a
  unique : ∀ a b, ev.finalized a → ev.notarized b → slot a = slot b → a = b
  unskipped : ∀ a, ev.finalized a → ¬ ev.skipped (slot a)

variable {slot link} {ev ev' : Evidence α} {a b x : α}

theorem Ordered.mono (h : Ordered slot link ev b)
    (notarized : ∀ a, ev.notarized a → ev'.notarized a)
    (skipped : ∀ j, ev.skipped j → ev'.skipped j) : Ordered slot link ev' b := by
  induction h with
  | root top gap => exact .root top fun j hj => skipped j (gap j hj)
  | step parent before hn gap _ ih =>
    exact .step parent before (notarized _ hn) (fun j h1 h2 => skipped j (gap j h1 h2)) ih

theorem Ordered.ancestor (ex : Exclusive slot ev) (h : Ordered slot link ev b)
    (ha : ev.finalized a) (lt : slot a < slot b) : Ancestor link a b := by
  induction h with
  | root _ gap => exact (ex.unskipped a ha (gap _ lt)).elim
  | @step p b parent before notarized gap _ ih =>
    rcases Nat.lt_trichotomy (slot a) (slot p) with below | same | above
    · exact .tail (ih below) parent
    · rw [ex.unique a p ha notarized same]
      exact .single parent
    · exact (ex.unskipped a ha (gap _ above lt)).elim

theorem Ordered.of_finalized (ex : Exclusive slot ev) (h : Ordered slot link ev x)
    (hb : ev.finalized b) (lt : slot b < slot x) : Ordered slot link ev b := by
  induction h with
  | root _ gap => exact (ex.unskipped b hb (gap _ lt)).elim
  | @step p x parent before notarized gap ordered ih =>
    rcases Nat.lt_trichotomy (slot b) (slot p) with below | same | above
    · exact ih below
    · rw [ex.unique b p hb notarized same]
      exact ordered
    · exact (ex.unskipped b hb (gap _ above lt)).elim

theorem Ordered.agreement (ex : Exclusive slot ev) (h : Ordered slot link ev b)
    (ha : ev.finalized a) (hb : ev.finalized b) (le : slot a ≤ slot b) :
    a = b ∨ Ancestor link a b := by
  rcases Nat.lt_or_eq_of_le le with lt | same
  · exact .inr (h.ancestor ex ha lt)
  · exact .inl (ex.unique a b ha (ex.notarized b hb) same)

end Gton.Chain
