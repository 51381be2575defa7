import Gton.Lib.Bits

/-!
# Shard identifiers

A shard is a workchain and a marked prefix: the lowest set bit of the word is the mark, the bits
above it are the prefix. A word is read here through that split; the source's mask arithmetic is
kept in the definitions.
-/

namespace Gton.Shard

open Gton.Lib.Bits

/-- `AccountPrefix`: the workchain and the first 64 bits of an account address. -/
structure AccountPrefix where
  workchain : BitVec 32
  prefix_ : BitVec 64
  deriving DecidableEq

structure ShardIdent where
  workchain : BitVec 32
  shard : BitVec 64
  deriving DecidableEq

def masterchainID : BitVec 32 := -1#32

/-- `Root`, the shard of a whole workchain. -/
def root : BitVec 64 := 0x8000000000000000

variable {s t : ShardIdent}

namespace ShardIdent

/-- Zero is no shard identifier, and the masterchain is never split. -/
structure Valid (s : ShardIdent) : Prop where
  tagged : s.shard ≠ 0#64
  whole : s.workchain = masterchainID → s.shard = root

def contains (s : ShardIdent) (workchain : BitVec 32) (pfx : BitVec 64) : Bool :=
  if s.workchain ≠ workchain then false
  else
    let low := s.shard &&& (~~~s.shard + 1#64)
    -- wraps to "cover all" for the root
    let mask := ~~~(2#64 * low - 1#64)
    (pfx ^^^ s.shard) &&& mask == 0#64

def containsPrefix (s : ShardIdent) (p : AccountPrefix) : Bool := s.contains p.workchain p.prefix_

/-- The position of the mark. -/
def tag (s : ShardIdent) : Nat := trailingZeros s.shard

theorem contains_iff (ne : s.shard ≠ 0#64) {p : AccountPrefix} :
    s.containsPrefix p = true ↔
      s.workchain = p.workchain ∧ AgreeFrom (s.tag + 1) p.prefix_ s.shard := by
  have low : s.shard &&& (~~~s.shard + 1#64) = BitVec.twoPow 64 s.tag := by
    rw [← BitVec.neg_eq_not_add]
    exact and_neg ne
  have mask : ~~~(2#64 * BitVec.twoPow 64 s.tag - 1#64) = highMask 64 (s.tag + 1) := by
    have double : 2#64 * BitVec.twoPow 64 s.tag = BitVec.twoPow 64 (s.tag + 1) := by
      bv_omega
    rw [double, ← neg_twoPow]
    exact not_sub_one _
  unfold containsPrefix contains
  simp only [low, mask]
  by_cases same : s.workchain = p.workchain
  · simp only [same, ne_eq, not_true_eq_false, if_false, beq_iff_eq, true_and]
    exact xor_and_highMask_eq_zero
  · simp [same]

end ShardIdent

def isNeighbor (leftWorkchain : BitVec 32) (left : BitVec 64) (rightWorkchain : BitVec 32)
    (right : BitVec 64) : Bool :=
  if left = 0#64 ∨ right = 0#64 then false
  else if (leftWorkchain = -1#32 ∧ left = root) ∨ (rightWorkchain = -1#32 ∧ right = root) then true
  else
    let leftLowest := left &&& -left
    let rightLowest := right &&& -right
    let maskBoundary := (if leftLowest < rightLowest then rightLowest else leftLowest) <<< 1
    let difference := (left ^^^ right) &&& -maskBoundary
    if difference = 0#64 then true
    else if leftWorkchain ≠ rightWorkchain then false
    else leadingZeros difference >>> 2 + trailingZeros difference >>> 2 == 15

/-- A word whose set bits all lie in one group of four. -/
theorem one_group {x : BitVec 64} (ne : x ≠ 0#64) {g : Nat}
    (group : ∀ i, x.getLsbD i = true → 4 * g ≤ i ∧ i < 4 * g + 4) :
    leadingZeros x >>> 2 + trailingZeros x >>> 2 = 15 := by
  have top := group _ (getLsbD_leadingZeros ne)
  have bottom := group _ (getLsbD_trailingZeros ne)
  have := leadingZeros_lt ne
  omega

/-- The bits above both marks decide: equal ones make neighbours, and so do ones that differ
within one group of four. -/
theorem isNeighbor_of_group (hs : s.shard ≠ 0#64) (ht : t.shard ≠ 0#64) {g : Nat}
    (group : ∀ i, s.tag < i → t.tag < i → s.shard.getLsbD i ≠ t.shard.getLsbD i →
      s.workchain = t.workchain ∧ 4 * g ≤ i ∧ i < 4 * g + 4) :
    isNeighbor s.workchain s.shard t.workchain t.shard = true := by
  unfold isNeighbor
  rw [if_neg (not_or.mpr ⟨hs, ht⟩)]
  split
  · rfl
  · have boundary : (if s.shard &&& -s.shard < t.shard &&& -t.shard then t.shard &&& -t.shard
        else s.shard &&& -s.shard) = BitVec.twoPow 64 (max s.tag t.tag) := by
      rw [and_neg hs, and_neg ht]
      simp only [twoPow_lt_twoPow (trailingZeros_lt hs) (trailingZeros_lt ht)]
      change (if s.tag < t.tag then BitVec.twoPow 64 t.tag else BitVec.twoPow 64 s.tag) = _
      split
      · rw [Nat.max_eq_right (by omega)]
      · rw [Nat.max_eq_left (by omega)]
    simp only [boundary, twoPow_shiftLeft_one, neg_twoPow]
    split
    · rfl
    next differ =>
      have apart (i : Nat) (set : ((s.shard ^^^ t.shard) &&&
          highMask 64 (max s.tag t.tag + 1)).getLsbD i = true) :
          s.workchain = t.workchain ∧ 4 * g ≤ i ∧ i < 4 * g + 4 := by
        rw [BitVec.getLsbD_and, BitVec.getLsbD_xor, getLsbD_highMask] at set
        simp only [Bool.and_eq_true, decide_eq_true_eq] at set
        apply group i
        · omega
        · omega
        · intro eq
          simp [eq] at set
      obtain ⟨i, -, set⟩ := exists_bit differ
      rw [if_neg (by simp [(apart i set).1]), beq_iff_eq]
      exact one_group differ fun i set => (apart i set).2

theorem isNeighbor_masterchain (hs : s.Valid) (ht : t.Valid)
    (master : s.workchain = masterchainID ∨ t.workchain = masterchainID) :
    isNeighbor s.workchain s.shard t.workchain t.shard = true := by
  unfold isNeighbor
  rw [if_neg (not_or.mpr ⟨hs.tagged, ht.tagged⟩), if_pos]
  rcases master with here | there
  · exact .inl ⟨here, hs.whole here⟩
  · exact .inr ⟨there, ht.whole there⟩

end Gton.Shard
