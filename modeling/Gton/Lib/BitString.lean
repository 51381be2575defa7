import Mathlib.Data.List.Infix
import Mathlib.Data.Nat.Bitwise
import Mathlib.Tactic.Ring

/-!
# Bit strings

A word and the string of its bits, the highest first.
-/

namespace Gton.Lib.BitString

open List BitVec

variable {w : Nat} {l : List Bool}

/-- The number a bit string writes. -/
def value : List Bool → Nat
  | [] => 0
  | b :: l => b.toNat * 2 ^ l.length + value l

/-- The bits of a word, the highest first. -/
def bits (x : BitVec w) : List Bool := (List.range w).map x.getMsbD

/-- Read a number of the given width from the front of a string. -/
def loadUInt (n : Nat) (l : List Bool) : Option (Nat × List Bool) :=
  if l.length < n then none else some (value (l.take n), l.drop n)

@[simp] theorem length_bits (x : BitVec w) : (bits x).length = w := by
  simp [bits]

theorem getElem?_bits (x : BitVec w) (i : Nat) :
    (bits x)[i]? = if i < w then some (x.getMsbD i) else none := by
  unfold bits
  by_cases inside : i < w
  · simp [inside]
  · simp [inside]

theorem value_lt (l : List Bool) : value l < 2 ^ l.length := by
  induction l with
  | nil => exact Nat.one_pos
  | cons b l ih =>
    have top : b.toNat * 2 ^ l.length ≤ 1 * 2 ^ l.length := Nat.mul_le_mul_right _ b.toNat_le
    rw [value, length_cons, pow_succ]
    omega

theorem testBit_value (l : List Bool) {i : Nat} (lt : i < l.length) :
    (value l).testBit (l.length - 1 - i) = l[i] := by
  induction l generalizing i with
  | nil => cases lt
  | cons b l ih =>
    rw [value, Nat.mul_comm, Nat.testBit_two_pow_mul_add _ (value_lt l)]
    cases i with
    | zero =>
      rw [if_neg (by simp)]
      cases b <;> simp
    | succ i =>
      have lt : i < l.length := Nat.lt_of_succ_lt_succ lt
      rw [if_pos (by rw [length_cons]; omega), getElem_cons_succ, ← ih lt]
      congr 1
      rw [length_cons]
      omega

/-- A short string shifted to the top of a word: the word's other bits are zero. -/
theorem getMsbD_value (le : l.length ≤ w) (i : Nat) :
    (BitVec.ofNat w (value l) <<< (w - l.length)).getMsbD i = l.getD i false := by
  rw [getMsbD_shiftLeft, getMsbD_eq_getLsbD, getLsbD_ofNat]
  by_cases lt : i < l.length
  · have pos : w - 1 - (i + (w - l.length)) = l.length - 1 - i := by omega
    rw [pos, testBit_value l lt, getD_eq_getElem _ _ lt]
    have inside : i + (w - l.length) < w := by omega
    have low : l.length - 1 - i < w := by omega
    simp [inside, low]
  · have past : ¬ i + (w - l.length) < w := by omega
    simp [past, List.getElem?_eq_none (Nat.not_lt.mp lt)]

theorem bits_value (wide : l.length = w) : bits (BitVec.ofNat w (value l)) = l := by
  apply ext_getElem?
  intro i
  have bit := getMsbD_value (Nat.le_of_eq wide) i
  rw [wide, Nat.sub_self, shiftLeft_zero] at bit
  rw [getElem?_bits, bit]
  by_cases inside : i < w
  · simp [inside, wide]
  · rw [if_neg inside, List.getElem?_eq_none (by omega)]

theorem take_bits_value (le : l.length ≤ w) :
    (bits (BitVec.ofNat w (value l) <<< (w - l.length))).take l.length = l := by
  apply ext_getElem?
  intro i
  rw [List.getElem?_take, getElem?_bits, getMsbD_value le]
  by_cases inside : i < l.length
  · simp [inside, Nat.lt_of_lt_of_le inside le]
  · rw [if_neg inside, List.getElem?_eq_none (Nat.not_lt.mp inside)]

/-- Words that continue the first bits of a word along a path: there is one exactly if the path
and those bits do not part. -/
theorem exists_extension (x : BitVec w) {n : Nat} {path : List Bool} (le : path.length ≤ w) :
    (∃ y : BitVec w, (bits y).take n = (bits x).take n ∧ path <+: bits y) ↔
      path <+: (bits x).take n ∨ (bits x).take n <+: path := by
  constructor
  · rintro ⟨y, same, leads⟩
    rw [← same]
    exact prefix_or_prefix_of_prefix leads (List.take_prefix n (bits y))
  · rintro (shorter | longer)
    · exact ⟨x, rfl, shorter.trans (List.take_prefix n (bits x))⟩
    · have wide : (path ++ List.replicate (w - path.length) false).length = w := by
        simp [le]
      refine ⟨BitVec.ofNat w (value (path ++ List.replicate (w - path.length) false)), ?_, ?_⟩
      · rw [bits_value wide]
        have leads := longer.trans (prefix_append path (List.replicate (w - path.length) false))
        rw [prefix_iff_eq_take.mp leads, length_take, length_bits, take_eq_take_min, wide]
      · rw [bits_value wide]
        exact prefix_append _ _

end Gton.Lib.BitString
