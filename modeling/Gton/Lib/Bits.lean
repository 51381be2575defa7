import Mathlib.Algebra.Group.Nat.Defs
import Mathlib.Data.Nat.Bits
import Mathlib.Data.List.Basic

/-!
# Words and their bits

The idioms of word arithmetic, each by what it does to the bits: the lowest set bit, the words
around it, masks, and counting zeros from either end.
-/

namespace Gton.Lib.Bits

open List BitVec

variable {w : Nat} {x y : BitVec w} {n i : Nat} {p : Nat → Bool}

/-! ## Counting zeros -/

/-- The number of leading zero bits, `w` for zero. -/
def leadingZeros (x : BitVec w) : Nat := ((List.range w).find? x.getMsbD).getD w

/-- The number of trailing zero bits, `w` for zero. -/
def trailingZeros (x : BitVec w) : Nat := ((List.range w).find? x.getLsbD).getD w

theorem exists_bit (ne : x ≠ 0#w) : ∃ i < w, x.getLsbD i = true := by
  by_contra none
  apply ne
  apply eq_of_getLsbD_eq
  intro i hi
  cases h : x.getLsbD i with
  | false => simp
  | true => exact absurd ⟨i, hi, h⟩ none

theorem find_range_le (hp : p i = true) : ((List.range n).find? p).getD n ≤ i ∨ n ≤ i := by
  by_cases hi : i < n
  · left
    cases found : (List.range n).find? p with
    | none =>
      have := find?_eq_none.mp found i (mem_range.mpr hi)
      exact absurd hp this
    | some j =>
      obtain ⟨-, -, first⟩ := find?_range_eq_some.mp found
      by_contra later
      have := first i (by simpa using later)
      simp [hp] at this
  · exact .inr (by omega)

theorem find_range_spec (some_ : ∃ i < n, p i = true) :
    ((List.range n).find? p).getD n < n ∧ p (((List.range n).find? p).getD n) = true := by
  obtain ⟨i, hi, hp⟩ := some_
  cases found : (List.range n).find? p with
  | none => exact absurd hp (find?_eq_none.mp found i (mem_range.mpr hi))
  | some j =>
    obtain ⟨here, mem, -⟩ := find?_range_eq_some.mp found
    exact ⟨mem_range.mp mem, here⟩

section

variable (ne : x ≠ 0#w)
include ne

theorem trailingZeros_lt : trailingZeros x < w :=
  (find_range_spec (exists_bit ne)).1

theorem getLsbD_trailingZeros : x.getLsbD (trailingZeros x) = true :=
  (find_range_spec (exists_bit ne)).2

omit ne in
theorem trailingZeros_le (set : x.getLsbD i = true) : trailingZeros x ≤ i := by
  have hi : i < w := lt_of_getLsbD set
  rcases find_range_le (n := w) set with le | ge
  · exact le
  · omega

omit ne in
theorem getLsbD_of_lt_trailingZeros (lt : i < trailingZeros x) : x.getLsbD i = false := by
  cases set : x.getLsbD i with
  | false => rfl
  | true => exact absurd (trailingZeros_le set) (Nat.not_le.mpr lt)

omit ne in
theorem trailingZeros_eq_of_bits (set : x.getLsbD i = true)
    (low : ∀ j < i, x.getLsbD j = false) : trailingZeros x = i := by
  have ne : x ≠ 0#w := by
    rintro rfl
    simp at set
  apply Nat.le_antisymm (trailingZeros_le set)
  by_contra lt
  have here := getLsbD_trailingZeros ne
  rw [low _ (by omega)] at here
  cases here

theorem exists_msb : ∃ i < w, x.getMsbD i = true := by
  obtain ⟨i, hi, set⟩ := exists_bit ne
  refine ⟨w - 1 - i, by omega, ?_⟩
  rw [getMsbD_eq_getLsbD, show w - 1 - (w - 1 - i) = i by omega, set]
  simp
  omega

theorem leadingZeros_lt : leadingZeros x < w :=
  (find_range_spec (exists_msb ne)).1

theorem getLsbD_leadingZeros : x.getLsbD (w - 1 - leadingZeros x) = true := by
  have set := (find_range_spec (exists_msb ne)).2
  exact (Bool.and_eq_true_iff.mp set).2

omit ne in
theorem leadingZeros_add_le (set : x.getLsbD i = true) : leadingZeros x + i < w := by
  have hi : i < w := lt_of_getLsbD set
  have msb : x.getMsbD (w - 1 - i) = true := by
    rw [getMsbD_eq_getLsbD, show w - 1 - (w - 1 - i) = i by omega, set]
    simp
    omega
  rcases find_range_le (n := w) msb with le | ge
  · have : leadingZeros x ≤ w - 1 - i := le
    omega
  · omega

omit ne in
theorem leadingZeros_zero : leadingZeros (0#w) = w := by
  have none : (List.range w).find? (0#w).getMsbD = none := by simp [find?_eq_none]
  unfold leadingZeros
  rw [none]
  rfl

omit ne in
theorem leadingZeros_le (x : BitVec w) : leadingZeros x ≤ w := by
  by_cases zero : x = 0#w
  · simp [zero, leadingZeros_zero]
  · exact Nat.le_of_lt (leadingZeros_lt zero)

omit ne in
theorem le_leadingZeros (le : n ≤ w) (zero : ∀ i, w - n ≤ i → x.getLsbD i = false) :
    n ≤ leadingZeros x := by
  by_cases ne : x = 0#w
  · rw [ne, leadingZeros_zero]
    exact le
  · by_contra lt
    have set := getLsbD_leadingZeros ne
    rw [zero _ (by omega)] at set
    cases set

/-! ## The lowest set bit -/

theorem exists_lower_iff (i : Nat) : (∃ j < i, x.getLsbD j = true) ↔ trailingZeros x < i := by
  constructor
  · rintro ⟨j, lt, set⟩
    exact Nat.lt_of_le_of_lt (trailingZeros_le set) lt
  · intro lt
    exact ⟨_, lt, getLsbD_trailingZeros ne⟩

theorem getLsbD_neg_word (i : Nat) :
    (-x).getLsbD i = (x.getLsbD i ^^ (decide (i < w) && decide (trailingZeros x < i))) := by
  rw [getLsbD_neg]
  simp only [exists_lower_iff ne]

theorem and_neg : x &&& -x = BitVec.twoPow w (trailingZeros x) := by
  have here := getLsbD_trailingZeros ne
  have lt := trailingZeros_lt ne
  apply eq_of_getLsbD_eq
  intro i hi
  rw [getLsbD_and, getLsbD_neg_word ne, getLsbD_twoPow]
  by_cases at_ : i = trailingZeros x
  · subst at_
    simp [here, lt]
  · cases set : x.getLsbD i with
    | false => simp [Ne.symm at_]
    | true =>
      have := trailingZeros_le set
      simp [Ne.symm at_, hi]
      omega

/-- `x - 1` fills the zeros below the lowest set bit. -/
theorem getLsbD_sub_one (hi : i < w) :
    (x - 1#w).getLsbD i =
      if trailingZeros x < i then x.getLsbD i else decide (i < trailingZeros x) := by
  rw [← not_neg, getLsbD_not, getLsbD_neg_word ne]
  split
  next above =>
    simp [hi, above]
  next below =>
    by_cases at_ : i = trailingZeros x
    · subst at_
      simp [hi, getLsbD_trailingZeros ne]
    · have under : i < trailingZeros x := by omega
      rw [getLsbD_of_lt_trailingZeros under]
      simp [hi, below, under]

end

/-- The bits from `n` on. -/
def highMask (w n : Nat) : BitVec w := BitVec.allOnes w <<< n

theorem getLsbD_highMask (n i : Nat) :
    (highMask w n).getLsbD i = (decide (i < w) && decide (n ≤ i)) := by
  unfold highMask
  rw [getLsbD_shiftLeft, getLsbD_allOnes]
  by_cases hi : i < w
  · by_cases hn : n ≤ i
    · have : ¬ i < n := by omega
      simp [hi, hn, this]
      omega
    · have : i < n := by omega
      simp [hi, hn, this]
  · simp [hi]

/-- Negating a power of two gives the mask of the bits from it on; past the top it is empty. -/
theorem neg_twoPow (n : Nat) : -(BitVec.twoPow w n) = highMask w n := by
  apply eq_of_getLsbD_eq
  intro i hi
  rw [getLsbD_neg, getLsbD_highMask]
  have lower : (∃ j, j < i ∧ (BitVec.twoPow w n).getLsbD j = true) ↔ n < i := by
    constructor
    · rintro ⟨j, lt, set⟩
      simp at set
      omega
    · intro lt
      refine ⟨n, lt, ?_⟩
      simp
      omega
  simp only [getLsbD_twoPow] at lower ⊢
  by_cases at_ : n = i
  · subst at_
    simp [hi]
  · by_cases lt : n < i
    · have le : n ≤ i := by omega
      have inner : n < w := by omega
      simp [hi, at_, lt, le, inner]
    · have : ¬ n ≤ i := by omega
      simp [hi, at_, lt, this]

theorem twoPow_shiftLeft_one (n : Nat) : BitVec.twoPow w n <<< 1 = BitVec.twoPow w (n + 1) := by
  apply eq_of_getLsbD_eq
  intro i hi
  rw [getLsbD_shiftLeft, getLsbD_twoPow, getLsbD_twoPow]
  by_cases at_ : n + 1 = i
  · subst at_
    simp [hi]
    omega
  · by_cases zero : i = 0
    · subst zero
      simp
    · have : ¬ n = i - 1 := by omega
      simp [at_, this]

theorem not_sub_one (x : BitVec w) : ~~~(x - 1#w) = -x := by
  rw [← not_neg, BitVec.not_not]

theorem twoPow_lt_twoPow {m : Nat} (hm : m < w) (hn : n < w) :
    BitVec.twoPow w m < BitVec.twoPow w n ↔ m < n := by
  rw [lt_def, toNat_twoPow, toNat_twoPow,
    Nat.mod_eq_of_lt (Nat.pow_lt_pow_right (by decide) hm),
    Nat.mod_eq_of_lt (Nat.pow_lt_pow_right (by decide) hn)]
  exact Nat.pow_lt_pow_iff_right (by decide)

/-! ## Words that agree from a bit on -/

/-- Equal from bit `n` on. -/
def AgreeFrom (n : Nat) (x y : BitVec w) : Prop := ∀ i, n ≤ i → x.getLsbD i = y.getLsbD i

theorem AgreeFrom.symm (h : AgreeFrom n x y) : AgreeFrom n y x :=
  fun i hi => (h i hi).symm

theorem xor_and_highMask_eq_zero : (x ^^^ y) &&& highMask w n = 0#w ↔ AgreeFrom n x y := by
  constructor
  · intro zero i hi
    by_cases lt : i < w
    · have bit := congrArg (fun z => z.getLsbD i) zero
      simp only [getLsbD_and, getLsbD_xor, getLsbD_highMask, lt, hi, decide_true,
        Bool.and_true, getLsbD_zero] at bit
      simpa using bit
    · rw [getLsbD_of_ge _ _ (by omega), getLsbD_of_ge _ _ (by omega)]
  · intro agree
    apply eq_of_getLsbD_eq
    intro i lt
    rw [getLsbD_and, getLsbD_xor, getLsbD_highMask, getLsbD_zero]
    by_cases hi : n ≤ i
    · rw [agree i hi]
      simp
    · simp [hi]

theorem agreeFrom_iff_div : AgreeFrom n x y ↔ x.toNat / 2 ^ n = y.toNat / 2 ^ n := by
  constructor
  · intro agree
    apply Nat.eq_of_testBit_eq
    intro i
    rw [Nat.testBit_div_two_pow, Nat.testBit_div_two_pow]
    exact agree _ (by omega)
  · intro eq i hi
    have bit := congrArg (fun z => z.testBit (i - n)) eq
    simp only [Nat.testBit_div_two_pow, Nat.sub_add_cancel hi] at bit
    exact bit

/-- A word with the high part `q` and every low bit equal to `b`. -/
theorem toNat_eq_of_bits {q : Nat} {b : Bool} (high : ∀ i, x.getLsbD (n + i) = q.testBit i)
    (low : ∀ i < n, x.getLsbD i = b) : x.toNat = 2 ^ n * q + if b then 2 ^ n - 1 else 0 := by
  have small : (if b then 2 ^ n - 1 else 0) < 2 ^ n := by
    have := Nat.two_pow_pos n
    split <;> omega
  apply Nat.eq_of_testBit_eq
  intro i
  rw [Nat.testBit_two_pow_mul_add _ small]
  split
  next below =>
    change x.getLsbD i = _
    rw [low i below]
    cases b <;> simp [Nat.testBit_two_pow_sub_one, below]
  · have := high (i - n)
    rwa [show n + (i - n) = i by omega] at this

/-- The words between `x & (x - 1)` and `x | (x - 1)` are those that agree with `x` above its
lowest set bit. -/
theorem between_iff_agreeFrom {p : BitVec w} (ne : x ≠ 0#w) :
    (¬ p < x &&& (x - 1#w) ∧ ¬ x ||| (x - 1#w) < p) ↔ AgreeFrom (trailingZeros x + 1) p x := by
  have lt := trailingZeros_lt ne
  have high (i : Nat) : (x - 1#w).getLsbD (trailingZeros x + 1 + i)
      = x.getLsbD (trailingZeros x + 1 + i) := by
    by_cases hi : trailingZeros x + 1 + i < w
    · rw [getLsbD_sub_one ne hi, if_pos (by omega)]
    · rw [getLsbD_of_ge _ _ (by omega), getLsbD_of_ge _ _ (by omega)]
  have quotient (i : Nat) : (x.toNat / 2 ^ (trailingZeros x + 1)).testBit i
      = x.getLsbD (trailingZeros x + 1 + i) := by
    rw [Nat.testBit_div_two_pow, Nat.add_comm]
    rfl
  have lower := toNat_eq_of_bits (x := x &&& (x - 1#w)) (b := false)
    (fun i => by rw [getLsbD_and, high, Bool.and_self, quotient]) (by
      intro i hi
      rw [getLsbD_and, getLsbD_sub_one ne (by omega), if_neg (by omega)]
      cases set : x.getLsbD i with
      | false => rfl
      | true =>
        have := trailingZeros_le set
        simp
        omega)
  have upper := toNat_eq_of_bits (x := x ||| (x - 1#w)) (b := true)
    (fun i => by rw [getLsbD_or, high, Bool.or_self, quotient]) (by
      intro i hi
      rw [getLsbD_or, getLsbD_sub_one ne (by omega), if_neg (by omega)]
      by_cases at_ : i = trailingZeros x
      · rw [at_, getLsbD_trailingZeros ne, Bool.true_or]
      · have : i < trailingZeros x := by omega
        simp [this])
  rw [agreeFrom_iff_div, lt_def, lt_def, lower, upper, Nat.not_lt, Nat.not_lt]
  have pos := Nat.two_pow_pos (trailingZeros x + 1)
  generalize x.toNat / 2 ^ (trailingZeros x + 1) = q
  generalize 2 ^ (trailingZeros x + 1) = b at pos
  simp only [Bool.false_eq_true, if_false, if_true, Nat.add_zero]
  rw [Nat.div_eq_iff pos, Nat.mul_comm b q]
  omega

/-! ## Splicing -/

/-- The top `n` bits of `hi` above the rest of `lo`. -/
def splice (n : Nat) (hi lo : BitVec w) : BitVec w :=
  hi &&& ~~~(BitVec.allOnes w >>> n) ||| lo &&& (BitVec.allOnes w >>> n)

theorem getLsbD_splice (n : Nat) (hi lo : BitVec w) (i : Nat) :
    (splice n hi lo).getLsbD i = if n + i < w then lo.getLsbD i else hi.getLsbD i := by
  unfold splice
  rw [getLsbD_or, getLsbD_and, getLsbD_and, getLsbD_not,
    getLsbD_ushiftRight, getLsbD_allOnes]
  by_cases lt : i < w
  · split <;> rename_i h <;> simp [lt, h]
  · rw [getLsbD_of_ge hi _ (by omega), getLsbD_of_ge lo _ (by omega)]
    simp

/-- Flipping the differing bits outside the mask splices. -/
theorem xor_and_not_eq_splice (n : Nat) (hi lo : BitVec w) :
    lo ^^^ ((hi ^^^ lo) &&& ~~~(BitVec.allOnes w >>> n)) = splice n hi lo := by
  apply eq_of_getLsbD_eq
  intro i lt
  rw [getLsbD_splice, getLsbD_xor, getLsbD_and, getLsbD_xor,
    getLsbD_not, getLsbD_ushiftRight, getLsbD_allOnes]
  split <;> rename_i h <;> cases hi.getLsbD i <;> cases lo.getLsbD i <;> simp [lt, h]

theorem splice_all (hi lo : BitVec w) (all : w ≤ n) : splice n hi lo = hi := by
  apply eq_of_getLsbD_eq
  intro i _
  rw [getLsbD_splice, if_neg (by omega)]

theorem splice_of_le_leadingZeros {hi lo : BitVec w} (le : n ≤ leadingZeros (hi ^^^ lo)) :
    splice n hi lo = lo := by
  apply eq_of_getLsbD_eq
  intro i lt
  rw [getLsbD_splice]
  split
  · rfl
  · by_contra differ
    have set : (hi ^^^ lo).getLsbD i = true := by
      simpa using differ
    have := leadingZeros_add_le set
    omega

theorem le_leadingZeros_splice (hi lo : BitVec w) (le : n ≤ w) :
    n ≤ leadingZeros (splice n hi lo ^^^ hi) := by
  apply le_leadingZeros le
  intro i top
  rw [getLsbD_xor, getLsbD_splice, if_neg (by omega), Bool.xor_self]

end Gton.Lib.Bits
