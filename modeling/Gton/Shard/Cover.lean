import Gton.Lib.Tiling
import Gton.Shard.Prefix
import Mathlib.Data.Nat.Bitwise

/-!
# What a shard covers

A shard stands for the account prefixes that agree with it above its mark. Containment of
identifiers is containment of these sets, the two children cut their parent in half, and a
sibling differs in the bit above the mark.
-/

namespace Gton.Shard

open Gton.Lib.Bits
open Gton.Lib.Tiling
open BitVec

def maxPrefixLength : Nat := 63

def contains (parent child : BitVec 64) : Bool :=
  if parent = 0#64 ∨ child = 0#64 then false
  else if prefixLength child < prefixLength parent then false
  else if prefixLength parent = 0 then true
  else
    let mask := BitVec.allOnes 64 <<< (64 - prefixLength parent)
    parent &&& mask == child &&& mask

def isDirectChild (parent child : BitVec 64) : Bool :=
  if parent = 0#64 ∨ child = 0#64 then false
  else prefixLength child == prefixLength parent + 1 && contains parent child

def parent (id : BitVec 64) : Option (BitVec 64) :=
  if id = 0#64 then none
  else if prefixLength id = 0 then none
  else ancestor id (prefixLength id - 1)

/-- The account prefixes of a shard; zero is no shard. -/
def cover (s : BitVec 64) : Set (BitVec 64) :=
  {x | s ≠ 0#64 ∧ AgreeFrom (trailingZeros s + 1) x s}

section Cover

variable {x y p c : BitVec 64}

theorem mem_cover : x ∈ cover p ↔ p ≠ 0#64 ∧ AgreeFrom (trailingZeros p + 1) x p := Iff.rfl

theorem mem_cover_self (ne : x ≠ 0#64) : x ∈ cover x := ⟨ne, fun _ _ => rfl⟩

theorem cover_nonempty_iff : (cover x).Nonempty ↔ x ≠ 0#64 := by
  constructor
  · rintro ⟨y, ne, -⟩
    exact ne
  · intro ne
    exact ⟨x, mem_cover_self ne⟩

theorem trailingZeros_root : trailingZeros root = 63 := by decide +kernel

theorem cover_root : cover root = Set.univ := by
  apply Set.eq_univ_of_forall
  intro x
  refine ⟨by decide, ?_⟩
  intro i hi
  rw [trailingZeros_root] at hi
  rw [getLsbD_of_ge _ _ hi, getLsbD_of_ge _ _ hi]

theorem and_highMask_eq_iff {n : Nat} : x &&& highMask 64 n = y &&& highMask 64 n ↔
    AgreeFrom n x y := by
  constructor
  · intro eq i hi
    by_cases lt : i < 64
    · have bit := congrArg (·.getLsbD i) eq
      simp only [getLsbD_and, getLsbD_highMask, lt, hi, decide_true, Bool.and_true] at bit
      exact bit
    · rw [getLsbD_of_ge _ _ (by omega), getLsbD_of_ge _ _ (by omega)]
  · intro agree
    apply eq_of_getLsbD_eq
    intro i lt
    rw [getLsbD_and, getLsbD_and, getLsbD_highMask]
    by_cases hi : n ≤ i
    · rw [agree i hi]
    · simp [hi]

/-- The mask arithmetic compares the bits above the parent's mark. -/
theorem contains_iff : contains p c = true ↔
    p ≠ 0#64 ∧ c ≠ 0#64 ∧ trailingZeros c ≤ trailingZeros p ∧
      AgreeFrom (trailingZeros p + 1) c p := by
  unfold contains
  by_cases zero : p = 0#64 ∨ c = 0#64
  · rcases zero with rfl | rfl <;> simp
  · rw [if_neg zero]
    obtain ⟨hp, hc⟩ := not_or.mp zero
    have tc := trailingZeros_lt hc
    simp only [ne_eq, hp, hc, not_false_eq_true, true_and]
    unfold prefixLength
    split
    · constructor
      · intro no
        cases no
      · rintro ⟨le, -⟩
        omega
    · have le : trailingZeros c ≤ trailingZeros p := by omega
      simp only [le, true_and]
      split
      · constructor
        · intro _ i hi
          rw [getLsbD_of_ge _ _ (by omega), getLsbD_of_ge _ _ (by omega)]
        · intro _
          rfl
      · have width : 64 - (63 - trailingZeros p) = trailingZeros p + 1 := by omega
        rw [beq_iff_eq, width]
        change p &&& highMask 64 (trailingZeros p + 1) = c &&& highMask 64 (trailingZeros p + 1) ↔ _
        rw [and_highMask_eq_iff]
        exact ⟨AgreeFrom.symm, AgreeFrom.symm⟩

theorem cover_subset_of_contains (h : contains p c = true) : cover c ⊆ cover p := by
  obtain ⟨hp, -, le, agree⟩ := contains_iff.mp h
  intro x hx
  refine ⟨hp, ?_⟩
  intro i hi
  rw [hx.2 i (by omega), agree i hi]

theorem contains_iff_cover_subset (hc : c ≠ 0#64) : contains p c = true ↔ cover c ⊆ cover p := by
  constructor
  · exact cover_subset_of_contains
  · intro sub
    obtain ⟨hp, agree⟩ := sub (mem_cover_self hc)
    refine contains_iff.mpr ⟨hp, hc, ?_, agree⟩
    -- a shallower child covers a word that differs from the parent at the child's own mark
    by_contra shallow
    have flipped : c ^^^ BitVec.twoPow 64 (trailingZeros c) ∈ cover c := by
      refine ⟨hc, ?_⟩
      intro i hi
      have : ¬ trailingZeros c = i := by omega
      simp [this]
    have same := (sub flipped).2 (trailingZeros c) (by omega)
    rw [← agree _ (by omega), getLsbD_xor, getLsbD_twoPow,
      getLsbD_trailingZeros hc] at same
    simp [trailingZeros_lt hc] at same

theorem eq_of_contains_of_trailingZeros (h : contains p c = true)
    (same : trailingZeros c = trailingZeros p) : c = p := by
  obtain ⟨hp, hc, -, agree⟩ := contains_iff.mp h
  rw [← marked_trailingZeros hp, ← marked_trailingZeros hc, same]
  have lt := trailingZeros_lt hp
  apply eq_of_getLsbD_eq
  intro i _
  rw [getLsbD_marked lt, getLsbD_marked lt]
  split
  · exact agree i (by omega)
  · rfl

end Cover

/-! ## Children -/

section Children

variable {x c y : BitVec 64} {left : Bool}

theorem child_eq_some : child x left = some c ↔
    x ≠ 0#64 ∧ 0 < trailingZeros x ∧ c = getChild x left := by
  by_cases ne : x = 0#64
  · simp [child, ne]
  · by_cases pos : 0 < trailingZeros x
    · rw [child_eq ne pos]
      simp [ne, pos, eq_comm]
    · have bottom : trailingZeros x = 0 := by omega
      have step : (x &&& -x) >>> 1 = 0#64 := by
        rw [and_neg ne, bottom]
        decide
      simp [child, ne, step, pos]

section

variable (ne : x ≠ 0#64) (pos : 0 < trailingZeros x)
include ne pos

/-- A child keeps the bits above the parent's mark, says which side it is at the mark, and has
its own mark right below. -/
theorem getLsbD_getChild (i : Nat) :
    (getChild x left).getLsbD i =
      if trailingZeros x < i then x.getLsbD i
      else if i = trailingZeros x then !left else decide (i = trailingZeros x - 1) := by
  have lt := trailingZeros_lt ne
  obtain ⟨e, he⟩ : ∃ e, trailingZeros x = e + 1 := ⟨trailingZeros x - 1, by omega⟩
  have half : (x &&& -x) >>> 1 = BitVec.twoPow 64 e := by
    rw [and_neg ne, he]
    apply eq_of_getLsbD_eq
    intro j hj
    rw [getLsbD_ushiftRight, getLsbD_twoPow, getLsbD_twoPow]
    have shifted : e + 1 = 1 + j ↔ e = j := by omega
    have small : e + 1 < 64 ↔ e < 64 := by omega
    simp only [shifted, small]
  have marks (y : BitVec 64) (low : ∀ j < e + 1, y.getLsbD j = false) :
      y + BitVec.twoPow 64 e = y ||| BitVec.twoPow 64 e := by
    apply add_eq_or_of_and_eq_zero
    apply eq_of_getLsbD_eq
    intro j _
    rw [getLsbD_and, getLsbD_twoPow]
    by_cases here : e = j
    · subst here
      simp [low e (by omega)]
    · simp [here]
  have below (j : Nat) (hj : j < e + 1) : x.getLsbD j = false :=
    getLsbD_of_lt_trailingZeros (he ▸ hj)
  have here := getLsbD_trailingZeros ne
  rw [he] at here
  cases left with
  | false =>
    have sum : getChild x false = x ||| BitVec.twoPow 64 e := by
      rw [← marks x below, ← half]
      rfl
    rw [sum, he, getLsbD_or, getLsbD_twoPow]
    rcases Nat.lt_trichotomy (e + 1) i with above | same | under
    · have : ¬ e = i := by omega
      simp [above, this]
    · subst same
      simp [here]
    · rw [below i under]
      have : ¬ e + 1 < i := by omega
      have : ¬ i = e + 1 := by omega
      simp [*, eq_comm]
      omega
  | true =>
    have cleared (j : Nat) : (x - BitVec.twoPow 64 (e + 1)).getLsbD j =
        if e + 1 < j then x.getLsbD j else false := by
      rw [← he, sub_mark ne, getLsbD_and, getLsbD_highMask]
      by_cases above : trailingZeros x < j
      · by_cases inside : j < 64
        · simp [above, inside, Nat.succ_le_of_lt above]
        · simp [above, getLsbD_of_ge x j (by omega)]
      · simp [above, mt Nat.lt_of_succ_le above]
    have sum : getChild x true = (x - BitVec.twoPow 64 (e + 1)) ||| BitVec.twoPow 64 e := by
      rw [← marks _ fun j hj => by rw [cleared, if_neg (by omega)]]
      have double : BitVec.twoPow 64 (e + 1) = BitVec.twoPow 64 e + BitVec.twoPow 64 e := by
        rw [← twoPow_shiftLeft_one]
        bv_omega
      have minus : getChild x true = x - BitVec.twoPow 64 e := by
        rw [← half]
        rfl
      rw [minus, double]
      bv_omega
    rw [sum, he, getLsbD_or, getLsbD_twoPow, cleared]
    by_cases above : e + 1 < i
    · have : ¬ e = i := by omega
      simp [above, this]
    · by_cases same : i = e + 1
      · subst same
        simp
      · simp [above, same, eq_comm]
        omega

theorem getChild_ne_zero : getChild x left ≠ 0#64 := by
  intro zero
  have bit : (getChild x left).getLsbD (trailingZeros x - 1) = _ :=
    getLsbD_getChild ne pos (trailingZeros x - 1)
  rw [zero, if_neg (by omega), if_neg (by omega)] at bit
  simp at bit

theorem trailingZeros_getChild : trailingZeros (getChild x left) = trailingZeros x - 1 := by
  apply trailingZeros_eq_of_bits
  · rw [getLsbD_getChild ne pos, if_neg (by omega), if_neg (by omega)]
    simp
  · intro i hi
    rw [getLsbD_getChild ne pos, if_neg (by omega), if_neg (by omega)]
    simp
    omega

theorem mem_cover_getChild :
    y ∈ cover (getChild x left) ↔ y ∈ cover x ∧ y.getLsbD (trailingZeros x) = !left := by
  rw [mem_cover, mem_cover, trailingZeros_getChild ne pos,
    show trailingZeros x - 1 + 1 = trailingZeros x by omega]
  constructor
  · rintro ⟨-, agree⟩
    refine ⟨⟨ne, ?_⟩, ?_⟩
    · intro i hi
      rw [agree i (by omega), getLsbD_getChild ne pos, if_pos (by omega)]
    · rw [agree _ (Nat.le_refl _), getLsbD_getChild ne pos, if_neg (by omega), if_pos rfl]
  · rintro ⟨⟨-, agree⟩, side⟩
    refine ⟨getChild_ne_zero ne pos, ?_⟩
    intro i hi
    rw [getLsbD_getChild ne pos]
    split
    · exact agree i (by omega)
    · have here : i = trailingZeros x := by omega
      rw [if_pos here, here, side]

theorem cover_children : cover x = cover (getChild x true) ∪ cover (getChild x false) := by
  ext y
  rw [Set.mem_union, mem_cover_getChild ne pos, mem_cover_getChild ne pos]
  cases y.getLsbD (trailingZeros x) <;> simp

theorem disjoint_children : Disjoint (cover (getChild x true)) (cover (getChild x false)) := by
  rw [Set.disjoint_left]
  intro y hl hr
  rw [mem_cover_getChild ne pos] at hl hr
  simp [hl.2] at hr

theorem getChild_lt_getChild : (getChild x true).toNat < (getChild x false).toNat := by
  apply Nat.lt_of_testBit (trailingZeros x)
  · rw [testBit_toNat, getLsbD_getChild ne pos, if_neg (by omega), if_pos rfl]
    rfl
  · rw [testBit_toNat, getLsbD_getChild ne pos, if_neg (by omega), if_pos rfl]
    rfl
  · intro i above
    rw [testBit_toNat, testBit_toNat, getLsbD_getChild ne pos,
      getLsbD_getChild ne pos, if_pos above, if_pos above]

end

theorem getChild_inj {side : Bool} (hx : x ≠ 0#64 ∧ 0 < trailingZeros x)
    (hy : y ≠ 0#64 ∧ 0 < trailingZeros y) (h : getChild x left = getChild y side) :
    x = y ∧ left = side := by
  have level : trailingZeros x = trailingZeros y := by
    have zeros := congrArg trailingZeros h
    rw [trailingZeros_getChild hx.1 hx.2, trailingZeros_getChild hy.1 hy.2] at zeros
    omega
  have bits (i : Nat) : (getChild x left).getLsbD i = (getChild y side).getLsbD i := by rw [h]
  constructor
  · apply eq_of_getLsbD_eq
    intro i _
    rcases Nat.lt_trichotomy i (trailingZeros x) with under | here | above
    · rw [getLsbD_of_lt_trailingZeros under, getLsbD_of_lt_trailingZeros (level ▸ under)]
    · rw [here, getLsbD_trailingZeros hx.1, level, getLsbD_trailingZeros hy.1]
    · have bit := bits i
      rw [getLsbD_getChild hx.1 hx.2, getLsbD_getChild hy.1 hy.2, if_pos above,
        if_pos (level ▸ above)] at bit
      exact bit
  · have bit := bits (trailingZeros x)
    rw [getLsbD_getChild hx.1 hx.2, getLsbD_getChild hy.1 hy.2, level] at bit
    simpa using bit

theorem contains_child_of_ne {s : BitVec 64} (h : contains x s = true) (differ : s ≠ x) :
    0 < trailingZeros x ∧
      (contains (getChild x true) s = true ∨ contains (getChild x false) s = true) := by
  obtain ⟨ne, hs, le, agree⟩ := contains_iff.mp h
  have lt : trailingZeros s < trailingZeros x := by
    apply Nat.lt_of_le_of_ne le
    intro same
    exact differ (eq_of_contains_of_trailingZeros h same)
  have pos : 0 < trailingZeros x := by omega
  have inside (left : Bool) (side : s.getLsbD (trailingZeros x) = !left) :
      contains (getChild x left) s = true := by
    refine contains_iff.mpr ⟨getChild_ne_zero ne pos, hs, ?_, ?_⟩
    · rw [trailingZeros_getChild ne pos]
      omega
    · exact ((mem_cover_getChild ne pos).mpr ⟨⟨ne, agree⟩, side⟩).2
  refine ⟨pos, ?_⟩
  cases side : s.getLsbD (trailingZeros x) with
  | false => exact .inl (inside true side)
  | true => exact .inr (inside false side)

end Children

/-! ## Siblings -/

/-- The other child of the parent. -/
def sibling (x : BitVec 64) : BitVec 64 := x ^^^ BitVec.twoPow 64 (trailingZeros x + 1)

section Siblings

variable {x : BitVec 64}

section

variable (ne : x ≠ 0#64) (lt : trailingZeros x < 63)
include ne lt

omit ne in
theorem getLsbD_sibling (i : Nat) :
    (sibling x).getLsbD i = (x.getLsbD i ^^ decide (i = trailingZeros x + 1)) := by
  unfold sibling
  have inside : trailingZeros x + 1 < 64 := by omega
  simp [inside, eq_comm]

theorem trailingZeros_sibling : trailingZeros (sibling x) = trailingZeros x := by
  apply trailingZeros_eq_of_bits
  · rw [getLsbD_sibling lt, getLsbD_trailingZeros ne]
    simp
  · intro i hi
    rw [getLsbD_sibling lt, getLsbD_of_lt_trailingZeros hi]
    simp
    omega

theorem sibling_ne_zero : sibling x ≠ 0#64 := by
  intro zero
  have bit := getLsbD_sibling lt (trailingZeros x)
  rw [zero, getLsbD_trailingZeros ne] at bit
  simp at bit

theorem sibling_sibling : sibling (sibling x) = x := by
  have mark := trailingZeros_sibling ne lt
  change sibling x ^^^ BitVec.twoPow 64 (trailingZeros (sibling x) + 1) = x
  rw [mark]
  unfold sibling
  rw [xor_assoc, BitVec.xor_self, xor_zero]

omit ne in
theorem sibling_ne : sibling x ≠ x := by
  intro same
  have bit := getLsbD_sibling lt (trailingZeros x + 1)
  rw [same] at bit
  simp at bit

theorem parent_eq : parent x = some (marked (trailingZeros x + 1) x) := by
  unfold parent
  have depth : prefixLength x ≠ 0 := by
    unfold prefixLength
    omega
  rw [if_neg ne, if_neg depth, ancestor_eq ne (by omega)]
  unfold prefixLength
  rw [show 63 - (63 - trailingZeros x - 1) = trailingZeros x + 1 by omega]

theorem getChild_parent (left : Bool) :
    getChild (marked (trailingZeros x + 1) x) left =
      if x.getLsbD (trailingZeros x + 1) = !left then x else sibling x := by
  have top : trailingZeros x + 1 < 64 := by omega
  have mark := trailingZeros_marked (x := x) top
  have bits (i : Nat) : (getChild (marked (trailingZeros x + 1) x) left).getLsbD i =
      if i = trailingZeros x + 1 then !left else x.getLsbD i := by
    rw [getLsbD_getChild (marked_ne_zero top) (by omega), mark, getLsbD_marked top]
    by_cases above : trailingZeros x + 1 < i
    · simp [above]
      omega
    · by_cases here : i = trailingZeros x + 1
      · simp [here]
      · rw [if_neg above, if_neg here, if_neg here]
        by_cases own : i = trailingZeros x
        · simp [own, getLsbD_trailingZeros ne]
        · rw [getLsbD_of_lt_trailingZeros (by omega)]
          simp
          omega
  apply eq_of_getLsbD_eq
  intro i _
  rw [bits]
  split
  next here =>
    subst here
    split
    next side =>
      exact side.symm
    next other =>
      rw [getLsbD_sibling lt]
      cases side : x.getLsbD (trailingZeros x + 1) <;> cases left <;> simp [side] at other ⊢
  next elsewhere =>
    split
    · rfl
    · rw [getLsbD_sibling lt]
      simp [elsewhere]

end

end Siblings

end Gton.Shard
