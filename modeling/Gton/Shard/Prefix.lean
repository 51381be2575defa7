import Gton.Shard.Ident

/-!
# Shard prefixes

How far a prefix reaches, its children and its ancestors: once as the shard package computes
them, once as the word arithmetic of `tlb.ShardID`, which moves one level at a time.
-/

namespace Gton.Shard

open Gton.Lib.Bits
open BitVec

def prefixLength (id : BitVec 64) : Nat := 63 - trailingZeros id

def child (parent : BitVec 64) (left : Bool) : Option (BitVec 64) :=
  if parent = 0#64 then none
  else
    let step := (parent &&& -parent) >>> 1
    if step = 0#64 then none
    else if left then some (parent - step) else some (parent + step)

def ancestor (id : BitVec 64) (depth : Nat) : Option (BitVec 64) :=
  if id = 0#64 then none
  else if depth > prefixLength id then none
  else if depth = 0 then some root
  else some ((id &&& (BitVec.allOnes 64 <<< (64 - depth))) ||| (1#64 <<< (63 - depth)))

def getChild (shard : BitVec 64) (left : Bool) : BitVec 64 :=
  let x := (shard &&& -shard) >>> 1
  if left then shard - x else shard + x

def getParent (shard : BitVec 64) : BitVec 64 :=
  let x := shard &&& -shard
  (shard - x) ||| (x <<< 1)

/-! ## Moving the mark -/

/-- The prefix of a word that has its mark at bit `e`. -/
def marked (e : Nat) (x : BitVec 64) : BitVec 64 :=
  (x &&& highMask 64 (e + 1)) ||| BitVec.twoPow 64 e

section Marked

variable {e : Nat} {x : BitVec 64}

theorem getLsbD_marked (lt : e < 64) (i : Nat) :
    (marked e x).getLsbD i = if e < i then x.getLsbD i else decide (i = e) := by
  unfold marked
  rw [getLsbD_or, getLsbD_and, getLsbD_highMask, getLsbD_twoPow]
  rcases Nat.lt_trichotomy e i with above | here | below
  · by_cases hi : i < 64
    · simp [above, hi, Nat.ne_of_lt above, Nat.succ_le_of_lt above]
    · simp [above, hi, getLsbD_of_ge _ _ (Nat.not_lt.mp hi), Nat.ne_of_lt above]
  · subst here
    simp [lt]
  · rw [decide_eq_false (Nat.not_le.mpr (Nat.lt_succ_of_lt below))]
    simp [Nat.not_lt.mpr (Nat.le_of_lt below), Nat.ne_of_gt below, Nat.ne_of_lt below]

theorem marked_ne_zero (lt : e < 64) : marked e x ≠ 0#64 := by
  intro zero
  have bit := getLsbD_marked (x := x) lt e
  rw [zero] at bit
  simp at bit

theorem trailingZeros_marked (lt : e < 64) : trailingZeros (marked e x) = e := by
  apply trailingZeros_eq_of_bits
  · rw [getLsbD_marked lt]
    simp
  · intro i below
    rw [getLsbD_marked lt, if_neg (Nat.lt_asymm below), decide_eq_false (Nat.ne_of_lt below)]

theorem marked_trailingZeros (ne : x ≠ 0#64) : marked (trailingZeros x) x = x := by
  apply eq_of_getLsbD_eq
  intro i _
  rw [getLsbD_marked (trailingZeros_lt ne)]
  split
  · rfl
  · by_cases here : i = trailingZeros x
    · subst here
      simp [getLsbD_trailingZeros ne]
    · rw [decide_eq_false here, getLsbD_of_lt_trailingZeros (by omega)]

theorem marked_top (x : BitVec 64) : marked 63 x = root := by
  apply eq_of_getLsbD_eq
  intro i lt
  have only : root.getLsbD i = decide (i = 63) := by
    change (BitVec.twoPow 64 63).getLsbD i = _
    simp [eq_comm]
  rw [getLsbD_marked (by decide), if_neg (by omega), only]

theorem sub_mark (ne : x ≠ 0#64) :
    x - BitVec.twoPow 64 (trailingZeros x) = x &&& highMask 64 (trailingZeros x + 1) := by
  have apart : (x &&& highMask 64 (trailingZeros x + 1)) &&& BitVec.twoPow 64 (trailingZeros x) =
      0#64 := by
    apply eq_of_getLsbD_eq
    intro i _
    rw [getLsbD_and, getLsbD_and, getLsbD_highMask, getLsbD_twoPow]
    by_cases here : trailingZeros x = i
    · subst here
      rw [decide_eq_false (Nat.not_succ_le_self _)]
      simp
    · simp [here]
  have sum := add_eq_or_of_and_eq_zero _ _ apart
  have self := marked_trailingZeros ne
  unfold marked at self
  rw [self] at sum
  calc x - BitVec.twoPow 64 (trailingZeros x)
      = (x &&& highMask 64 (trailingZeros x + 1)) + BitVec.twoPow 64 (trailingZeros x) -
          BitVec.twoPow 64 (trailingZeros x) := by rw [sum]
    _ = _ := BitVec.add_sub_cancel _ _

theorem ancestor_eq (ne : x ≠ 0#64) {depth : Nat} (le : depth ≤ prefixLength x) :
    ancestor x depth = some (marked (63 - depth) x) := by
  unfold ancestor
  rw [if_neg ne, if_neg (Nat.not_lt.mpr le)]
  split
  next zero =>
    subst zero
    rw [marked_top]
  · unfold prefixLength at le
    have up : 64 - depth = 63 - depth + 1 := by omega
    unfold marked highMask
    rw [up, twoPow_eq]

theorem child_eq (ne : x ≠ 0#64) (lt : 0 < trailingZeros x) (left : Bool) :
    child x left = some (getChild x left) := by
  have step : (x &&& -x) >>> 1 ≠ 0#64 := by
    rw [and_neg ne]
    intro zero
    have bit := congrArg (·.getLsbD (trailingZeros x - 1)) zero
    have := trailingZeros_lt ne
    simp at bit
    omega
  unfold child getChild
  rw [if_neg ne]
  simp only [if_neg step]
  cases left <;> rfl

end Marked

end Gton.Shard
