import Gton.Collator.SeenHashes
import Gton.Lib.Interleaving
import Mathlib.Algebra.BigOperators.Fin
import Mathlib.Algebra.Order.BigOperators.Group.Finset

/-!
# The size estimate of the collated proof

A collation estimates the proof of its predecessor state from the cells it reads: a loaded cell
counts with its own size, a cell that is only referenced counts as a pruned branch. The estimator
is split into sixteen shards by the hash; each step holds the locks of the shards it touches, so
the steps of several goroutines happen one after the other in some order.
-/

namespace Gton.Collator

open List

/-! ## The estimator -/

def estimatedPrunedBranchBytes : UInt64 := 41

def proofEstimatorShards : Nat := 16

def proofEstimatorBatchMaxShards : Nat := proofEstimatorShards / 2

def proofEstimatorBatchMaxCells : Nat := 64

structure ProofEstimatorShard where
  bytes : UInt64
  seen : ProofSeenHashSet

structure ProofSizeEstimator where
  shards : Fin proofEstimatorShards → ProofEstimatorShard
  isSealed : Bool

def proofEstimatorShardOf (hash : CellHash) : Fin proofEstimatorShards :=
  ⟨hash[31].toNat &&& (proofEstimatorShards - 1), by
    have le : hash[31].toNat &&& (proofEstimatorShards - 1) ≤ proofEstimatorShards - 1 :=
      Nat.and_le_right
    unfold proofEstimatorShards at le ⊢
    omega⟩

/-- What the estimator reads of a cell. -/
structure LoadedCell where
  hash : CellHash
  bitsSize : Nat
  refs : List CellHash
  bits_le : bitsSize ≤ 1023
  refs_le : refs.length ≤ 4
  deriving DecidableEq

/-- `proofEstimatorLoadedCellCharge`. -/
structure LoadedCellCharge where
  hash : CellHash
  refs : List CellHash
  loadedBytes : UInt64
  mask : BitVec 32

/-- The number of bytes a loaded cell is charged. -/
def LoadedCell.loadedBytes (root : LoadedCell) : Nat :=
  5 + (root.bitsSize + 7) / 8 + root.refs.length * 3

def proofEstimatorChargeMask (hash : CellHash) (refs : List CellHash) : BitVec 32 :=
  refs.foldl (fun mask ref => mask ||| 1#32 <<< (proofEstimatorShardOf ref).val)
    (1#32 <<< (proofEstimatorShardOf hash).val)

def makeProofEstimatorLoadedCellCharge (root : LoadedCell) : LoadedCellCharge where
  hash := root.hash
  refs := root.refs
  loadedBytes := UInt64.ofNat root.loadedBytes
  mask := proofEstimatorChargeMask root.hash root.refs

def newProofSizeEstimator (expectedReadCells : Int) : ProofSizeEstimator where
  shards _ := ⟨0, ProofSeenHashSet.empty.presize
    ((expectedReadCells * 7).tdiv 5 |>.tdiv proofEstimatorShards)⟩
  isSealed := false

namespace ProofSizeEstimator

/-- Change one shard. -/
def update (e : ProofSizeEstimator) (i : Fin proofEstimatorShards) (shard : ProofEstimatorShard) :
    ProofSizeEstimator :=
  { e with shards := fun j => if j = i then shard else e.shards j }

/-- One child of `addLoadedCellLocked`. -/
def addBoundary (e : ProofSizeEstimator) (ref : CellHash) : Option ProofSizeEstimator := do
  let i := proofEstimatorShardOf ref
  let (prior, seen) ← (e.shards i).seen.observe ref proofSeenBoundary 0#64
  let bytes := (e.shards i).bytes
  return e.update i ⟨if prior = 0#64 then bytes + estimatedPrunedBranchBytes else bytes, seen⟩

def addLoadedCellLocked (e : ProofSizeEstimator) (charge : LoadedCellCharge) :
    Option ProofSizeEstimator := do
  let i := proofEstimatorShardOf charge.hash
  let (prior, seen) ← (e.shards i).seen.observe charge.hash (proofSeenLoaded ||| proofSeenSelected)
    proofSeenBoundary
  let bytes := (e.shards i).bytes
  if prior &&& proofSeenLoaded ≠ 0#64 then return e.update i ⟨bytes, seen⟩
  else
    let bytes :=
      if prior &&& proofSeenBoundary ≠ 0#64 then bytes - estimatedPrunedBranchBytes else bytes
    charge.refs.foldlM addBoundary (e.update i ⟨bytes + charge.loadedBytes, seen⟩)

/-- The charges made under one lock. -/
def addCharges (e : ProofSizeEstimator) (roots : List LoadedCell) : Option ProofSizeEstimator :=
  if e.isSealed then some e
  else roots.foldlM
    (fun e root => e.addLoadedCellLocked (makeProofEstimatorLoadedCellCharge root)) e

/-- `addExecutionRead`; nothing is read without a cell. -/
def addExecutionRead (e : ProofSizeEstimator) (loaded : Option CellHash) :
    Option ProofSizeEstimator :=
  match loaded with
  | none => some e
  | some hash =>
    if e.isSealed then some e
    else do
      let i := proofEstimatorShardOf hash
      let (_, seen) ← (e.shards i).seen.observe hash proofSeenSelected 0#64
      return e.update i ⟨(e.shards i).bytes, seen⟩

def size (e : ProofSizeEstimator) : UInt64 :=
  (List.finRange proofEstimatorShards).foldl (fun total i => total + (e.shards i).bytes) 0

/-- `loadedHashes`: the estimator takes no more records, and the view answers for it. -/
def loadedHashes (e : ProofSizeEstimator) :
    ProofSizeEstimator × (Fin proofEstimatorShards → ProofSeenHashSet) :=
  ({ e with isSealed := true }, fun i => (e.shards i).seen)

/-- What the view says of a hash. -/
def emitted (e : ProofSizeEstimator) (hash : CellHash) : Bool :=
  (e.loadedHashes.2 (proofEstimatorShardOf hash)).emitted hash

/-- Loading the cell takes back the pruned branch it stood for. -/
def withdraws (e : ProofSizeEstimator) (root : LoadedCell) : Bool :=
  let flags := (e.shards (proofEstimatorShardOf root.hash)).seen.flags root.hash
  flags &&& proofSeenLoaded == 0#64 && flags &&& proofSeenBoundary != 0#64

end ProofSizeEstimator

/-! ## Batches -/

/-- The cells `addLoadedCells` takes under one lock: as many as touch at most half the shards. -/
def nextChunk (mask : BitVec 32) : List LoadedCell → List LoadedCell × List LoadedCell
  | [] => ([], [])
  | root :: rest =>
    let next := mask ||| (makeProofEstimatorLoadedCellCharge root).mask
    if mask ≠ 0#32 ∧ proofEstimatorBatchMaxShards < next.toNat.bits.count true then
      ([], root :: rest)
    else
      let (chunk, rest) := nextChunk next rest
      (root :: chunk, rest)

/-- The chunks of one window. -/
def windowChunks : Nat → List LoadedCell → List (List LoadedCell)
  | 0, _ => []
  | _, [] => []
  | fuel + 1, window =>
    let (chunk, rest) := nextChunk 0#32 window
    chunk :: windowChunks fuel rest

/-- The chunks of a batch, window by window. -/
def batchChunks : Nat → List LoadedCell → List (List LoadedCell)
  | 0, _ => []
  | _, [] => []
  | fuel + 1, roots =>
    let window := roots.take proofEstimatorBatchMaxCells
    windowChunks window.length window ++ batchChunks fuel (roots.drop proofEstimatorBatchMaxCells)

/-- `addLoadedCells`, as the chunks it applies one after the other. -/
def addLoadedCells (roots : List LoadedCell) : List (List LoadedCell) :=
  batchChunks roots.length roots

/-! ## Runs -/

/-- What happens under one set of locks. -/
inductive EstimatorStep
  | charges (roots : List LoadedCell)
  | executionRead (loaded : Option CellHash)

/-- A call of the estimator. -/
inductive EstimatorCall
  | addLoadedCell (root : LoadedCell)
  | addLoadedCells (roots : List LoadedCell)
  | addExecutionRead (loaded : Option CellHash)

/-- The steps a call takes; others may come between them. -/
def EstimatorCall.steps : EstimatorCall → List EstimatorStep
  | addLoadedCell root => [.charges [root]]
  | addLoadedCells roots => (Collator.addLoadedCells roots).map .charges
  | addExecutionRead loaded => [.executionRead loaded]

def ProofSizeEstimator.step (e : ProofSizeEstimator) : EstimatorStep → Option ProofSizeEstimator
  | .charges roots => e.addCharges roots
  | .executionRead loaded => e.addExecutionRead loaded

def ProofSizeEstimator.run (e : ProofSizeEstimator) (steps : List EstimatorStep) :
    Option ProofSizeEstimator :=
  steps.foldlM ProofSizeEstimator.step e

/-! ## Read sets -/

/-- One record: a loaded cell, or a cell the executor has read. -/
inductive EstimatorEvent
  | load (root : LoadedCell)
  | read (hash : CellHash)

def EstimatorStep.events : EstimatorStep → List EstimatorEvent
  | charges roots => roots.map .load
  | executionRead none => []
  | executionRead (some hash) => [.read hash]

/-- The cells loaded by some records. -/
def loadedOf (events : List EstimatorEvent) : Finset LoadedCell :=
  (events.filterMap fun event => match event with
    | .load root => some root
    | .read _ => none).toFinset

/-- The hashes the executor has read. -/
def readsOf (events : List EstimatorEvent) : Finset CellHash :=
  (events.filterMap fun event => match event with
    | .load _ => none
    | .read hash => some hash).toFinset

/-- The hashes of some cells. -/
def hashesOf (cells : Finset LoadedCell) : Finset CellHash := cells.image (·.hash)

/-- The children of some cells. -/
def childrenOf (cells : Finset LoadedCell) : Finset CellHash :=
  cells.biUnion fun root => root.refs.toFinset

/-- The bytes of a proof that has these cells: theirs, and a pruned branch for every child that is
not one of them. -/
def proofBytes (cells : Finset LoadedCell) : Nat :=
  ∑ root ∈ cells, root.loadedBytes + 41 * (childrenOf cells \ hashesOf cells).card

/-- The part of the bytes that belongs to one shard. -/
def shardBytes (cells : Finset LoadedCell) (children : Finset CellHash)
    (i : Fin proofEstimatorShards) : Nat :=
  ∑ root ∈ cells with proofEstimatorShardOf root.hash = i, root.loadedBytes +
    41 * ((children \ hashesOf cells).filter (proofEstimatorShardOf · = i)).card

/-- A hash stands for one cell. -/
def Coherent (cells : Finset LoadedCell) : Prop :=
  ∀ c ∈ cells, ∀ d ∈ cells, c.hash = d.hash → c = d

instance (cells : Finset LoadedCell) : Decidable (Coherent cells) :=
  inferInstanceAs (Decidable (∀ c ∈ cells, ∀ d ∈ cells, c.hash = d.hash → c = d))

section ReadSets

variable {cells : Finset LoadedCell} {children : Finset CellHash} {i : Fin proofEstimatorShards}
  {root : LoadedCell}

theorem mem_hashesOf {hash : CellHash} : hash ∈ hashesOf cells ↔ ∃ c ∈ cells, c.hash = hash := by
  simp [hashesOf]

theorem hashesOf_insert : hashesOf (insert root cells) = insert root.hash (hashesOf cells) := by
  simp [hashesOf]

theorem loadedBytes_le (root : LoadedCell) : root.loadedBytes ≤ 145 := by
  have bits := root.bits_le
  have refs := root.refs_le
  unfold LoadedCell.loadedBytes
  omega

theorem sum_shardBytes : ∑ i, shardBytes cells (childrenOf cells) i = proofBytes cells := by
  have branches : (childrenOf cells \ hashesOf cells).card =
      ∑ i, ((childrenOf cells \ hashesOf cells).filter (proofEstimatorShardOf · = i)).card :=
    Finset.card_eq_sum_card_fiberwise fun _ _ => Finset.mem_coe.mpr (Finset.mem_univ _)
  unfold shardBytes proofBytes
  rw [Finset.sum_add_distrib, ← Finset.mul_sum, Finset.sum_fiberwise, branches]

theorem shardBytes_insert (new : root.hash ∉ hashesOf cells) :
    shardBytes (insert root cells) children i +
        (if proofEstimatorShardOf root.hash = i ∧ root.hash ∈ children then 41 else 0) =
      shardBytes cells children i +
        (if proofEstimatorShardOf root.hash = i then root.loadedBytes else 0) := by
  have fresh : root ∉ cells := fun mem => new (mem_hashesOf.mpr ⟨root, mem, rfl⟩)
  unfold shardBytes
  rw [hashesOf_insert, Finset.sdiff_insert, Finset.filter_erase]
  by_cases here : proofEstimatorShardOf root.hash = i
  · rw [Finset.filter_insert, if_pos here, Finset.sum_insert (by simp [fresh]), if_pos here]
    by_cases child : root.hash ∈ children
    · have mem : root.hash ∈ (children \ hashesOf cells).filter (proofEstimatorShardOf · = i) := by
        simp [child, new, here]
      have card := Finset.card_erase_add_one mem
      simp only [here, child, and_self, if_true]
      omega
    · have gone : root.hash ∉ (children \ hashesOf cells).filter (proofEstimatorShardOf · = i) := by
        simp [child]
      rw [Finset.erase_eq_of_notMem gone]
      simp only [child, and_false, if_false]
      omega
  · have gone : root.hash ∉ (children \ hashesOf cells).filter (proofEstimatorShardOf · = i) := by
      simp [here]
    rw [Finset.filter_insert, if_neg here, Finset.erase_eq_of_notMem gone]
    simp [here]

theorem shardBytes_child {ref : CellHash} :
    shardBytes cells (insert ref children) i = shardBytes cells children i +
      (if proofEstimatorShardOf ref = i ∧ ref ∉ hashesOf cells ∧ ref ∉ children then 41
        else 0) := by
  unfold shardBytes
  by_cases loaded : ref ∈ hashesOf cells
  · rw [Finset.insert_sdiff_of_mem _ loaded]
    simp [loaded]
  · rw [Finset.insert_sdiff_of_notMem _ loaded, Finset.filter_insert]
    by_cases here : proofEstimatorShardOf ref = i
    · rw [if_pos here]
      by_cases child : ref ∈ children
      · rw [Finset.insert_eq_of_mem (by simp [child, loaded, here])]
        simp [child]
      · rw [Finset.card_insert_of_notMem (by simp [child])]
        simp only [here, loaded, child, not_false_eq_true, and_self, if_true]
        omega
    · simp [here]

end ReadSets

/-! ## Flags -/

section Flags

variable {x : BitVec 64}

theorem and_twoPow_ne_zero {n : Nat} (lt : n < 64) :
    x &&& BitVec.twoPow 64 n ≠ 0#64 ↔ x.getLsbD n = true := by
  rw [BitVec.and_twoPow]
  cases x.getLsbD n with
  | false => simp
  | true =>
    simp only [if_true, iff_true]
    intro zero
    have bit := congrArg (fun y : BitVec 64 => y.getLsbD n) zero
    simp [lt] at bit

theorem loaded_iff : x &&& proofSeenLoaded ≠ 0#64 ↔ x.getLsbD 0 = true :=
  @and_twoPow_ne_zero x 0 (by decide)

theorem boundary_iff : x &&& proofSeenBoundary ≠ 0#64 ↔ x.getLsbD 1 = true :=
  @and_twoPow_ne_zero x 1 (by decide)

theorem selected_iff : x &&& proofSeenSelected ≠ 0#64 ↔ x.getLsbD 2 = true :=
  @and_twoPow_ne_zero x 2 (by decide)

theorem flags_eq_zero (low : x.toNat < 8) : x = 0#64 ↔
    x.getLsbD 0 = false ∧ x.getLsbD 1 = false ∧ x.getLsbD 2 = false := by
  constructor
  · rintro rfl
    decide
  · rintro ⟨h₀, h₁, h₂⟩
    apply BitVec.eq_of_getLsbD_eq
    intro i _
    rw [BitVec.getLsbD_zero]
    match i with
    | 0 => exact h₀
    | 1 => exact h₁
    | 2 => exact h₂
    | n + 3 =>
      apply Nat.testBit_lt_two_pow
      have wide : 2 ^ 3 ≤ 2 ^ (n + 3) := Nat.pow_le_pow_right (by decide) (by omega)
      omega

theorem emitted_flags : x &&& (proofSeenLoaded ||| proofSeenSelected) ≠ 0#64 ↔
    x.getLsbD 0 = true ∨ x.getLsbD 2 = true := by
  constructor
  · intro some_
    rw [← loaded_iff, ← selected_iff]
    by_contra none_
    rw [not_or, not_not, not_not] at none_
    rw [BitVec.and_or_distrib_left, none_.1, none_.2] at some_
    exact some_ rfl
  · rintro (set | set) zero
    · have bit := congrArg (fun y : BitVec 64 => y.getLsbD 0) zero
      simp only [BitVec.getLsbD_and, set] at bit
      exact absurd bit (by decide)
    · have bit := congrArg (fun y : BitVec 64 => y.getLsbD 2) zero
      simp only [BitVec.getLsbD_and, set] at bit
      exact absurd bit (by decide)

theorem getLsbD_promoted : (x &&& ~~~proofSeenBoundary ||| (proofSeenLoaded |||
    proofSeenSelected)).getLsbD 0 = true ∧ (x &&& ~~~proofSeenBoundary ||| (proofSeenLoaded |||
    proofSeenSelected)).getLsbD 2 = true := by
  simp only [BitVec.getLsbD_or, Bool.or_eq_true]
  exact ⟨.inr (.inl (by decide)), .inr (.inr (by decide))⟩

theorem getLsbD_raised (flag : BitVec 64) (i : Nat) :
    (x &&& ~~~0#64 ||| flag).getLsbD i = (x.getLsbD i || flag.getLsbD i) := by
  rw [BitVec.not_zero, BitVec.and_allOnes, BitVec.getLsbD_or]

end Flags

/-! ## What the estimator knows -/

/-- What the estimator's tables know of a hash. -/
def ProofSizeEstimator.flags (e : ProofSizeEstimator) (hash : CellHash) : BitVec 64 :=
  (e.shards (proofEstimatorShardOf hash)).seen.flags hash

/-- The hashes that may come up, with room for them in the tables. -/
def Fits (known : Finset CellHash) : Prop :=
  ∀ i, (known.filter (proofEstimatorShardOf · = i)).card < 2 ^ 29

/-- An estimator that has recorded some loaded cells, some of their children and some reads. -/
structure Records (e : ProofSizeEstimator) (known : Finset CellHash) (cells : Finset LoadedCell)
    (children reads : Finset CellHash) : Prop where
  unsealed : e.isSealed = false
  sound : ∀ i, (e.shards i).seen.Sound
  entries : ∀ i, ∀ hash ∈ (e.shards i).seen.entries,
    hash ∈ known.filter (proofEstimatorShardOf · = i)
  low : ∀ hash, (e.flags hash).toNat < 8
  loaded : ∀ hash, (e.flags hash).getLsbD 0 = true ↔ hash ∈ hashesOf cells
  boundary : ∀ hash, hash ∉ hashesOf cells →
    ((e.flags hash).getLsbD 1 = true ↔ hash ∈ children)
  selected : ∀ hash, (e.flags hash).getLsbD 2 = true ↔ hash ∈ hashesOf cells ∨ hash ∈ reads
  bytes : ∀ i, (e.shards i).bytes.toNat = shardBytes cells children i

section Records

variable {e : ProofSizeEstimator} {known children reads : Finset CellHash} {root : LoadedCell}
  {hash ref : CellHash} {seen : ProofSeenHashSet} {set clear : BitVec 64}

theorem ProofSizeEstimator.flags_update (bytes : UInt64)
    (observed : ProofSeenHashSet.Observed (e.shards (proofEstimatorShardOf hash)).seen seen
      hash set clear) (other : CellHash) :
    (e.update (proofEstimatorShardOf hash) ⟨bytes, seen⟩).flags other =
      if other = hash then e.flags hash &&& ~~~clear ||| set else e.flags other := by
  unfold ProofSizeEstimator.flags ProofSizeEstimator.update
  simp only
  by_cases same : proofEstimatorShardOf other = proofEstimatorShardOf hash
  · rw [if_pos same, observed.flags, same]
  · have differ : other ≠ hash := by
      rintro rfl
      exact same rfl
    rw [if_neg same, if_neg differ]

section

variable (h : Records e known cells children reads)
include h

theorem Records.count_lt (fits : Fits known) (mem : hash ∈ known)
    (absent : hash ∉ (e.shards (proofEstimatorShardOf hash)).seen.entries) :
    (e.shards (proofEstimatorShardOf hash)).seen.count + 1 < 2 ^ 29 := by
  have sound := h.sound (proofEstimatorShardOf hash)
  have inside : (hash :: (e.shards (proofEstimatorShardOf hash)).seen.entries).toFinset ⊆
      known.filter (proofEstimatorShardOf · = proofEstimatorShardOf hash) := by
    intro other among
    rw [mem_toFinset, mem_cons] at among
    rcases among with rfl | old
    · simp [mem]
    · exact h.entries _ other old
  have card := Finset.card_le_card inside
  rw [toFinset_card_of_nodup (nodup_cons.mpr ⟨absent, sound.nodup⟩), length_cons,
    sound.counted] at card
  have room := fits (proofEstimatorShardOf hash)
  omega

theorem Records.observe (fits : Fits known) (mem : hash ∈ known)
    (clear : BitVec 64) (low : set.toNat < 8) :
    ∃ seen, (e.shards (proofEstimatorShardOf hash)).seen.observe hash set clear =
        some (e.flags hash, seen) ∧
      ProofSeenHashSet.Observed (e.shards (proofEstimatorShardOf hash)).seen seen hash set clear :=
  ProofSeenHashSet.observe_spec (h.sound _) (h.count_lt fits mem) low

/-- A step at one hash: the tables change there only, and the bytes of its shard may. -/
theorem Records.step (mem : hash ∈ known) {bytes : UInt64}
    (observed : ProofSeenHashSet.Observed (e.shards (proofEstimatorShardOf hash)).seen seen
      hash set clear)
    (low : set.toNat < 8) {cells' : Finset LoadedCell} {children' reads' : Finset CellHash}
    (elsewhere : ∀ other, other ≠ hash → (other ∈ hashesOf cells' ↔ other ∈ hashesOf cells) ∧
      (other ∈ children' ↔ other ∈ children) ∧ (other ∈ reads' ↔ other ∈ reads))
    (loaded : (e.flags hash &&& ~~~clear ||| set).getLsbD 0 = true ↔ hash ∈ hashesOf cells')
    (boundary : hash ∉ hashesOf cells' →
      ((e.flags hash &&& ~~~clear ||| set).getLsbD 1 = true ↔ hash ∈ children'))
    (selected : (e.flags hash &&& ~~~clear ||| set).getLsbD 2 = true ↔ hash ∈ hashesOf cells' ∨
      hash ∈ reads')
    (own : bytes.toNat = shardBytes cells' children' (proofEstimatorShardOf hash))
    (others : ∀ i, i ≠ proofEstimatorShardOf hash →
      shardBytes cells' children' i = shardBytes cells children i) :
    Records (e.update (proofEstimatorShardOf hash) ⟨bytes, seen⟩) known cells'
      children' reads' := by
  have flags := ProofSizeEstimator.flags_update bytes observed
  have shards (i : Fin proofEstimatorShards) :
      (e.update (proofEstimatorShardOf hash) ⟨bytes, seen⟩).shards i =
        if i = proofEstimatorShardOf hash then ⟨bytes, seen⟩ else e.shards i := rfl
  constructor
  · exact h.unsealed
  · intro i
    rw [shards]
    split
    · exact observed.sound
    · exact h.sound i
  · intro i other
    rw [shards]
    split
    next same =>
      subst same
      rw [observed.entries]
      split
      · exact h.entries _ other
      · rw [mem_append, mem_singleton]
        rintro (old | rfl)
        · exact h.entries _ other old
        · simp [mem]
    · exact h.entries i other
  · intro other
    rw [flags]
    split
    · exact ProofSeenHashSet.toNat_or_lt (ProofSeenHashSet.toNat_and_lt (h.low hash)) low
    · exact h.low other
  · intro other
    rw [flags]
    split
    next same =>
      rw [same, loaded]
    next differ =>
      rw [h.loaded, (elsewhere other differ).1]
  · intro other absent
    rw [flags]
    split
    next same =>
      rw [same] at absent ⊢
      exact boundary absent
    next differ =>
      obtain ⟨hashes, refs, -⟩ := elsewhere other differ
      rw [h.boundary other (mt hashes.mpr absent), refs]
  · intro other
    rw [flags]
    split
    next same =>
      rw [same, selected]
    next differ =>
      obtain ⟨hashes, -, read⟩ := elsewhere other differ
      rw [h.selected, hashes, read]
  · intro i
    rw [shards]
    split
    next same =>
      rw [same, own]
    next away =>
      rw [h.bytes, others i away]

/-- What is known beforehand of the cells and children of a run. -/
structure Allowed (known : Finset CellHash) (cells : Finset LoadedCell)
    (children : Finset CellHash) : Prop where
  fits : Fits known
  coherent : Coherent cells
  cells : hashesOf cells ⊆ known
  children : children ⊆ known

omit h in
theorem shardBytes_lt (allowed : Allowed known cells children) (i : Fin proofEstimatorShards) :
    shardBytes cells children i < 2 ^ 37 := by
  have room := allowed.fits i
  have own : (cells.filter (proofEstimatorShardOf ·.hash = i)).card ≤
      (known.filter (proofEstimatorShardOf · = i)).card := by
    apply Finset.card_le_card_of_injOn LoadedCell.hash
    · intro c mem
      simp only [Finset.coe_filter, Set.mem_ofPred_eq] at mem ⊢
      exact ⟨allowed.cells (mem_hashesOf.mpr ⟨c, mem.1, rfl⟩), mem.2⟩
    · intro c hc d hd same
      simp only [Finset.coe_filter, Set.mem_ofPred_eq] at hc hd
      exact allowed.coherent c hc.1 d hd.1 same
  have branches : ((children \ hashesOf cells).filter (proofEstimatorShardOf · = i)).card ≤
      (known.filter (proofEstimatorShardOf · = i)).card := by
    apply Finset.card_le_card
    apply Finset.filter_subset_filter
    exact Finset.sdiff_subset.trans allowed.children
  have sum : ∑ root ∈ cells with proofEstimatorShardOf root.hash = i, root.loadedBytes ≤
      (cells.filter (proofEstimatorShardOf ·.hash = i)).card * 145 := by
    apply Finset.sum_le_card_nsmul
    intro root _
    exact loadedBytes_le root
  unfold shardBytes
  omega

omit h in
/-- A child that is not loaded has its pruned branch on its shard's counter. -/
theorem le_shardBytes (child : ref ∈ children) (absent : ref ∉ hashesOf cells) :
    41 ≤ shardBytes cells children (proofEstimatorShardOf ref) := by
  have mem : ref ∈ (children \ hashesOf cells).filter
      (proofEstimatorShardOf · = proofEstimatorShardOf ref) := by simp [child, absent]
  have pos := Finset.card_pos.mpr ⟨ref, mem⟩
  unfold shardBytes
  omega

omit h in
theorem toNat_add_of_lt {x y : UInt64} (lt : x.toNat + y.toNat < 2 ^ 64) :
    (x + y).toNat = x.toNat + y.toNat := by
  exact Nat.mod_eq_of_lt lt

/-- A child is charged a pruned branch when it comes up for the first time, as long as no
execution read has come before. -/
theorem Records.addBoundary (allowed : Allowed known cells children) (mem : ref ∈ known)
    (inOrder : ref ∈ reads → ref ∈ hashesOf cells ∨ ref ∈ children) :
    ∃ e', e.addBoundary ref = some e' ∧
      Records e' known cells (insert ref children) reads := by
  obtain ⟨seen, ends, observed⟩ := h.observe allowed.fits mem 0#64
    (by decide : proofSeenBoundary.toNat < 8)
  have fresh : e.flags ref = 0#64 ↔ ref ∉ hashesOf cells ∧ ref ∉ children := by
    rw [flags_eq_zero (h.low ref)]
    constructor
    · rintro ⟨h₀, h₁, -⟩
      have absent : ref ∉ hashesOf cells := by
        rw [← h.loaded, h₀]
        simp
      refine ⟨absent, ?_⟩
      rw [← h.boundary ref absent, h₁]
      simp
    · rintro ⟨absent, new⟩
      refine ⟨?_, ?_, ?_⟩
      · rw [← Bool.not_eq_true, h.loaded]
        exact absent
      · rw [← Bool.not_eq_true, h.boundary ref absent]
        exact new
      · rw [← Bool.not_eq_true, h.selected]
        rintro (loaded | read)
        · exact absent loaded
        · exact (inOrder read).elim absent new
  let bytes := if e.flags ref = 0#64
    then (e.shards (proofEstimatorShardOf ref)).bytes + estimatedPrunedBranchBytes
    else (e.shards (proofEstimatorShardOf ref)).bytes
  refine ⟨e.update (proofEstimatorShardOf ref) ⟨bytes, seen⟩, ?_, ?_⟩
  · unfold ProofSizeEstimator.addBoundary
    simp only [ends]
    rfl
  · have bits : proofSeenBoundary.getLsbD 0 = false ∧ proofSeenBoundary.getLsbD 1 = true ∧
        proofSeenBoundary.getLsbD 2 = false := by decide
    apply h.step mem observed (by decide)
    · intro other differ
      simp [differ]
    · rw [getLsbD_raised, bits.1, Bool.or_false, h.loaded]
    · intro _
      simp [bits]
    · rw [getLsbD_raised, bits.2.2, Bool.or_false, h.selected]
    · have bound := shardBytes_lt allowed (proofEstimatorShardOf ref)
      have before := h.bytes (proofEstimatorShardOf ref)
      rw [shardBytes_child]
      simp only [true_and, bytes, fresh]
      split
      · rw [toNat_add_of_lt, before]
        · rfl
        · change _ + 41 < _
          omega
      · rw [before, Nat.add_zero]
    · intro i away
      rw [shardBytes_child, if_neg (fun both => away both.1.symm), Nat.add_zero]

omit h in
theorem Records.addBoundaries {refs : List CellHash} : ∀ {e : ProofSizeEstimator}
    {children : Finset CellHash}, Records e known cells children reads →
    Allowed known cells children → (∀ ref ∈ refs, ref ∈ known) →
    (∀ ref ∈ refs, ref ∈ reads → ref ∈ hashesOf cells ∨ ref ∈ children) →
    ∃ e', refs.foldlM ProofSizeEstimator.addBoundary e = some e' ∧
      Records e' known cells (refs.toFinset ∪ children) reads := by
  induction refs with
  | nil =>
    intro e children h _ _ _
    refine ⟨e, rfl, ?_⟩
    rw [toFinset_nil, Finset.empty_union]
    exact h
  | cons ref refs ih =>
    intro e children h allowed mem inOrder
    obtain ⟨middle, first, records⟩ := h.addBoundary allowed (mem ref mem_cons_self)
      (inOrder ref mem_cons_self)
    have known' : insert ref children ⊆ known := by
      intro other among
      rcases Finset.mem_insert.mp among with rfl | old
      · exact mem other mem_cons_self
      · exact allowed.children old
    obtain ⟨e', rest, final⟩ := ih records ⟨allowed.fits, allowed.coherent, allowed.cells, known'⟩
      (fun other later => mem other (mem_cons_of_mem _ later)) (by
        intro other later read
        rw [Finset.mem_insert]
        exact (inOrder other (mem_cons_of_mem _ later) read).imp_right .inr)
    refine ⟨e', ?_, ?_⟩
    · rw [foldlM_cons, first]
      exact rest
    · rw [toFinset_cons, Finset.insert_union, ← Finset.union_insert]
      exact final

/-- The charge of a cell that is loaded for the first time, before its children. -/
theorem Records.charge (allowed : Allowed known (insert root cells) children)
    (new : root.hash ∉ hashesOf cells)
    (observed : ProofSeenHashSet.Observed (e.shards (proofEstimatorShardOf root.hash)).seen seen
      root.hash (proofSeenLoaded ||| proofSeenSelected) proofSeenBoundary) :
    Records (e.update (proofEstimatorShardOf root.hash)
      ⟨(if e.flags root.hash &&& proofSeenBoundary ≠ 0#64
        then (e.shards (proofEstimatorShardOf root.hash)).bytes - estimatedPrunedBranchBytes
        else (e.shards (proofEstimatorShardOf root.hash)).bytes) +
          UInt64.ofNat root.loadedBytes, seen⟩) known (insert root cells) children reads := by
  have mem : root.hash ∈ known := allowed.cells (mem_hashesOf.mpr ⟨root, by simp, rfl⟩)
  have total := fun i => @shardBytes_insert cells children i root new
  obtain ⟨first, second⟩ := @getLsbD_promoted (e.flags root.hash)
  apply h.step mem observed (by decide)
  · intro other differ
    simp [hashesOf_insert, differ]
  · rw [first]
    simp [hashesOf_insert]
  · intro absent
    simp [hashesOf_insert] at absent
  · rw [second]
    simp [hashesOf_insert]
  · have bound := shardBytes_lt allowed (proofEstimatorShardOf root.hash)
    have before := h.bytes (proofEstimatorShardOf root.hash)
    have total := total (proofEstimatorShardOf root.hash)
    have small := loadedBytes_le root
    have own : (UInt64.ofNat root.loadedBytes).toNat = root.loadedBytes := by
      exact Nat.mod_eq_of_lt (by omega)
    simp only [true_and, if_true, boundary_iff, h.boundary root.hash new] at total ⊢
    split
    next child =>
      have enough := le_shardBytes child new
      rw [if_pos child] at total
      have after : ((e.shards (proofEstimatorShardOf root.hash)).bytes -
          estimatedPrunedBranchBytes).toNat =
            shardBytes cells children (proofEstimatorShardOf root.hash) - 41 := by
        have le : estimatedPrunedBranchBytes ≤
            (e.shards (proofEstimatorShardOf root.hash)).bytes := by
          rw [UInt64.le_iff_toNat_le, before]
          exact enough
        rw [UInt64.toNat_sub_of_le _ _ le, before]
        rfl
      rw [toNat_add_of_lt, after, own]
      · omega
      · omega
    next child =>
      rw [if_neg child] at total
      rw [toNat_add_of_lt, before, own]
      · omega
      · omega
  · intro i away
    have other : ¬ proofEstimatorShardOf root.hash = i := fun same => away same.symm
    simpa [other] using total i

theorem Records.reload (mem : hash ∈ known) (old : hash ∈ hashesOf cells)
    (observed : ProofSeenHashSet.Observed (e.shards (proofEstimatorShardOf hash)).seen seen hash
      (proofSeenLoaded ||| proofSeenSelected) proofSeenBoundary) :
    Records (e.update (proofEstimatorShardOf hash)
      ⟨(e.shards (proofEstimatorShardOf hash)).bytes, seen⟩) known cells children reads := by
  obtain ⟨first, second⟩ := @getLsbD_promoted (e.flags hash)
  apply h.step mem observed (by decide)
  · exact fun _ _ => ⟨Iff.rfl, Iff.rfl, Iff.rfl⟩
  · rw [first]
    simp [old]
  · exact fun absent => absurd old absent
  · rw [second]
    simp [old]
  · exact h.bytes _
  · exact fun _ _ => rfl

end

theorem childrenOf_insert :
    childrenOf (insert root cells) = root.refs.toFinset ∪ childrenOf cells := by
  simp [childrenOf, Finset.biUnion_insert]

theorem subset_childrenOf (mem : root ∈ cells) : root.refs.toFinset ⊆ childrenOf cells :=
  Finset.subset_biUnion_of_mem (fun root : LoadedCell => root.refs.toFinset) mem

theorem Records.load (h : Records e known cells (childrenOf cells) reads)
    (allowed : Allowed known (insert root cells) (childrenOf (insert root cells)))
    (inOrder : root.hash ∉ hashesOf cells → ∀ ref ∈ root.refs, ref ∈ reads → ref ∈ hashesOf cells ∨
      ref ∈ childrenOf cells) :
    ∃ e', e.addLoadedCellLocked (makeProofEstimatorLoadedCellCharge root) = some e' ∧
      Records e' known (insert root cells) (childrenOf (insert root cells)) reads := by
  have mem : root.hash ∈ known := allowed.cells (mem_hashesOf.mpr ⟨root, by simp, rfl⟩)
  have fewer : childrenOf cells ⊆ known := by
    refine Finset.Subset.trans ?_ allowed.children
    rw [childrenOf_insert]
    exact Finset.subset_union_right
  obtain ⟨seen, ends, observed⟩ := h.observe allowed.fits mem proofSeenBoundary
    (by decide : (proofSeenLoaded ||| proofSeenSelected).toNat < 8)
  unfold ProofSizeEstimator.addLoadedCellLocked makeProofEstimatorLoadedCellCharge
  simp only [ends, Option.bind_eq_bind, Option.bind_some, loaded_iff, h.loaded]
  by_cases old : root.hash ∈ hashesOf cells
  · obtain ⟨twin, inside, same⟩ := mem_hashesOf.mp old
    have known_ : root ∈ cells := by
      rw [← allowed.coherent twin (Finset.mem_insert_of_mem inside) root (by simp) same]
      exact inside
    rw [if_pos old, Finset.insert_eq_of_mem known_]
    exact ⟨_, rfl, h.reload mem old observed⟩
  · rw [if_neg old]
    have allowed' : Allowed known (insert root cells) (childrenOf cells) :=
      ⟨allowed.fits, allowed.coherent, allowed.cells, fewer⟩
    have charged := h.charge allowed' old observed
    obtain ⟨e', rest, final⟩ := charged.addBoundaries allowed' (by
        intro ref among
        apply allowed.children
        exact subset_childrenOf (Finset.mem_insert_self root cells) (mem_toFinset.mpr among))
      (by
        intro ref among read
        rw [hashesOf_insert, Finset.mem_insert]
        exact (inOrder old ref among read).imp_left .inr)
    refine ⟨e', rest, ?_⟩
    rw [childrenOf_insert]
    exact final

theorem Records.read (h : Records e known cells children reads) (fits : Fits known)
    (mem : hash ∈ known) :
    ∃ e', e.addExecutionRead (some hash) = some e' ∧
      Records e' known cells children (insert hash reads) := by
  obtain ⟨seen, ends, observed⟩ := h.observe fits mem 0#64
    (by decide : proofSeenSelected.toNat < 8)
  let bytes := (e.shards (proofEstimatorShardOf hash)).bytes
  refine ⟨e.update (proofEstimatorShardOf hash) ⟨bytes, seen⟩, ?_, ?_⟩
  · unfold ProofSizeEstimator.addExecutionRead
    simp only [h.unsealed, ends]
    rfl
  · have bits : proofSeenSelected.getLsbD 0 = false ∧ proofSeenSelected.getLsbD 1 = false ∧
        proofSeenSelected.getLsbD 2 = true := by decide
    apply h.step mem observed (by decide)
    · intro other differ
      simp [differ]
    · rw [getLsbD_raised, bits.1, Bool.or_false, h.loaded]
    · intro absent
      rw [getLsbD_raised, bits.2.1, Bool.or_false, h.boundary hash absent]
    · simp [bits]
    · exact h.bytes _
    · exact fun _ _ => rfl

end Records

/-! ## Whole runs -/

/-- One record in an estimator that is not sealed. -/
def ProofSizeEstimator.record (e : ProofSizeEstimator) : EstimatorEvent → Option ProofSizeEstimator
  | .load root => e.addLoadedCellLocked (makeProofEstimatorLoadedCellCharge root)
  | .read hash => e.addExecutionRead (some hash)

section Runs

variable {e e' : ProofSizeEstimator} {events before after : List EstimatorEvent} {root : LoadedCell}
  {hash : CellHash} {known : Finset CellHash} {cells more : Finset LoadedCell}

/-- A step of an estimator that is not sealed makes the records it holds. -/
theorem step_eq_records (open_ : e.isSealed = false) (step : EstimatorStep) :
    e.step step = step.events.foldlM ProofSizeEstimator.record e := by
  match step with
  | .charges roots =>
    simp only [ProofSizeEstimator.step, ProofSizeEstimator.addCharges, open_, Bool.false_eq_true,
      if_false, EstimatorStep.events, foldlM_map]
    rfl
  | .executionRead none => rfl
  | .executionRead (some hash) =>
    simp [EstimatorStep.events, ProofSizeEstimator.record, ProofSizeEstimator.step]

theorem run_eq_records {steps : List EstimatorStep}
    (open_ : ∀ done later, steps = done ++ later → ∀ e',
      (done.flatMap EstimatorStep.events).foldlM ProofSizeEstimator.record e = some e' →
      e'.isSealed = false) :
    e.run steps = (steps.flatMap EstimatorStep.events).foldlM ProofSizeEstimator.record e := by
  induction steps using List.reverseRecOn with
  | nil => rfl
  | append_singleton done step ih =>
    have before := ih fun first later same => open_ first (later ++ [step]) (by
      rw [same, append_assoc])
    unfold ProofSizeEstimator.run at before ⊢
    rw [foldlM_append, before, flatMap_append, foldlM_append]
    cases middle : (done.flatMap EstimatorStep.events).foldlM ProofSizeEstimator.record e with
    | none => rfl
    | some next =>
      have one := step_eq_records (open_ done [step] rfl next middle) step
      simp [one]

theorem loadedOf_append : loadedOf (before ++ after) = loadedOf before ∪ loadedOf after := by
  simp [loadedOf, filterMap_append, toFinset_append]

theorem readsOf_append : readsOf (before ++ after) = readsOf before ∪ readsOf after := by
  simp [readsOf, filterMap_append, toFinset_append]

theorem loadedOf_load : loadedOf (before ++ [.load root]) = insert root (loadedOf before) := by
  rw [loadedOf_append, Finset.union_comm]
  rfl

theorem readsOf_load : readsOf (before ++ [.load root]) = readsOf before := by
  rw [readsOf_append]
  exact Finset.union_empty _

theorem loadedOf_read : loadedOf (before ++ [.read hash]) = loadedOf before := by
  rw [loadedOf_append]
  exact Finset.union_empty _

theorem readsOf_read : readsOf (before ++ [.read hash]) = insert hash (readsOf before) := by
  rw [readsOf_append, Finset.union_comm]
  rfl

/-- All hashes that come up in some records. -/
def knownOf (events : List EstimatorEvent) : Finset CellHash :=
  hashesOf (loadedOf events) ∪ childrenOf (loadedOf events) ∪ readsOf events

/-- When a cell is loaded for the first time, no child of it was read by the executor before it
was loaded or referenced. -/
def ReadsFollowReferences (events : List EstimatorEvent) : Prop :=
  ∀ before root after, events = before ++ .load root :: after →
    root.hash ∉ hashesOf (loadedOf before) → ∀ ref ∈ root.refs, ref ∈ readsOf before →
      ref ∈ hashesOf (loadedOf before) ∨ ref ∈ childrenOf (loadedOf before)

theorem hashesOf_mono (sub : cells ⊆ more) :
    hashesOf cells ⊆ hashesOf more := Finset.image_subset_image sub

theorem childrenOf_mono (sub : cells ⊆ more) :
    childrenOf cells ⊆ childrenOf more := Finset.biUnion_subset_biUnion_of_subset_left _ sub

theorem records_new (expectedReadCells : Int) :
    Records (newProofSizeEstimator expectedReadCells) known ∅ ∅ ∅ := by
  obtain ⟨sound, none_, -⟩ := ProofSeenHashSet.sound_empty.presize
    ((expectedReadCells * 7).tdiv 5 |>.tdiv proofEstimatorShards)
  change _ = [] at none_
  have flags (hash : CellHash) : (newProofSizeEstimator expectedReadCells).flags hash = 0#64 := by
    apply sound.flags_absent
    rw [none_]
    simp
  refine ⟨rfl, fun _ => sound, ?_, ?_, ?_, ?_, ?_, ?_⟩
  · intro i hash mem
    change hash ∈ (ProofSeenHashSet.empty.presize _).entries at mem
    rw [none_] at mem
    cases mem
  · intro hash
    rw [flags]
    decide
  · intro hash
    rw [flags]
    simp [hashesOf]
  · intro hash _
    rw [flags]
    simp
  · intro hash
    rw [flags]
    simp [hashesOf]
  · intro i
    simp [shardBytes, newProofSizeEstimator]

/-- Records the tables have room for, of cells with a hash each, with their reads in order. -/
structure Proper (known : Finset CellHash) (events : List EstimatorEvent) : Prop where
  known : knownOf events ⊆ known
  coherent : Coherent (loadedOf events)
  inOrder : ReadsFollowReferences events

theorem Proper.of_append (h : Proper known (before ++ after)) : Proper known before := by
  have fewer : loadedOf before ⊆ loadedOf (before ++ after) := by
    rw [loadedOf_append]
    exact Finset.subset_union_left
  have less : readsOf before ⊆ readsOf (before ++ after) := by
    rw [readsOf_append]
    exact Finset.subset_union_left
  refine ⟨Finset.Subset.trans ?_ h.known, fun c hc d hd => h.coherent c (fewer hc) d (fewer hd), ?_⟩
  · exact Finset.union_subset_union (Finset.union_subset_union (hashesOf_mono fewer)
      (childrenOf_mono fewer)) less
  · intro first root later same
    apply h.inOrder first root (later ++ after)
    rw [same, append_assoc, cons_append]

theorem Proper.allowed (h : Proper known events) (fits : Fits known) :
    Allowed known (loadedOf events) (childrenOf (loadedOf events)) :=
  ⟨fits, h.coherent,
    Finset.Subset.trans (Finset.subset_union_left.trans Finset.subset_union_left) h.known,
    Finset.Subset.trans (Finset.subset_union_right.trans Finset.subset_union_left) h.known⟩

theorem records_run (expectedReadCells : Int) (fits : Fits known) :
    ∀ {events : List EstimatorEvent}, Proper known events →
      ∃ e, events.foldlM ProofSizeEstimator.record (newProofSizeEstimator expectedReadCells) =
          some e ∧
        Records e known (loadedOf events) (childrenOf (loadedOf events)) (readsOf events) := by
  intro events
  induction events using List.reverseRecOn with
  | nil =>
    intro _
    exact ⟨_, rfl, records_new expectedReadCells⟩
  | append_singleton before event ih =>
    intro h
    obtain ⟨e, run, records⟩ := ih h.of_append
    rw [foldlM_append, run]
    simp only [foldlM_cons, foldlM_nil, Option.bind_eq_bind, Option.bind_some]
    cases event with
    | load root =>
      have allowed := h.allowed fits
      rw [loadedOf_load] at allowed
      obtain ⟨e', done, final⟩ := records.load allowed (h.inOrder before root [] rfl)
      refine ⟨e', ?_, ?_⟩
      · simp only [ProofSizeEstimator.record, done]
        rfl
      · rw [loadedOf_load, readsOf_load]
        exact final
    | read hash =>
      have mem : hash ∈ known := by
        apply h.known
        unfold knownOf
        rw [readsOf_read]
        simp
      obtain ⟨e', done, final⟩ := records.read fits mem
      refine ⟨e', ?_, ?_⟩
      · simp only [ProofSizeEstimator.record, done]
        rfl
      · rw [loadedOf_read, readsOf_read]
        exact final

end Runs

/-! ## What the estimator answers -/

section Answers

variable {e : ProofSizeEstimator} {known reads children : Finset CellHash}
  {cells : Finset LoadedCell}

theorem toNat_foldl_add {ι : Type} {f : ι → UInt64} {items : List ι} : ∀ {total : UInt64},
    total.toNat + (items.map fun i => (f i).toNat).sum < 2 ^ 64 →
    (items.foldl (fun total i => total + f i) total).toNat =
      total.toNat + (items.map fun i => (f i).toNat).sum := by
  induction items with
  | nil => simp
  | cons i items ih =>
    intro total lt
    rw [map_cons, sum_cons] at lt ⊢
    have first : (total + f i).toNat = total.toNat + (f i).toNat := toNat_add_of_lt (by omega)
    rw [foldl_cons, ih (by omega), first, Nat.add_assoc]

theorem Records.size (h : Records e known cells (childrenOf cells) reads)
    (allowed : Allowed known cells (childrenOf cells)) : e.size.toNat = proofBytes cells := by
  have total : ((List.finRange proofEstimatorShards).map fun i => (e.shards i).bytes.toNat).sum =
      proofBytes cells := by
    rw [← sum_shardBytes, ← Fin.sum_univ_def]
    exact Finset.sum_congr rfl fun i _ => h.bytes i
  have bound : proofBytes cells < 2 ^ 64 := by
    have each : ∑ i : Fin proofEstimatorShards, shardBytes cells (childrenOf cells) i ≤
        (Finset.univ : Finset (Fin proofEstimatorShards)).card * 2 ^ 37 := by
      apply Finset.sum_le_card_nsmul
      intro i _
      exact (shardBytes_lt allowed i).le
    rw [sum_shardBytes, Finset.card_univ, Fintype.card_fin] at each
    unfold proofEstimatorShards at each
    omega
  unfold ProofSizeEstimator.size
  rw [toNat_foldl_add]
  · rw [total]
    exact Nat.zero_add _
  · change 0 + _ < _
    omega

theorem Records.emitted (h : Records e known cells children reads) (hash : CellHash) :
    e.emitted hash = true ↔ hash ∈ hashesOf cells ∨ hash ∈ reads := by
  change ((e.flags hash &&& (proofSeenLoaded ||| proofSeenSelected)) != 0#64) = true ↔ _
  rw [bne_iff_ne, emitted_flags, h.loaded, h.selected]
  tauto

/-- What is taken back was charged to the same counter. -/
theorem Records.withdraws (h : Records e known cells children reads)
    (back : e.withdraws root = true) :
    estimatedPrunedBranchBytes ≤ (e.shards (proofEstimatorShardOf root.hash)).bytes := by
  change ((e.flags root.hash &&& proofSeenLoaded) == 0#64 &&
    (e.flags root.hash &&& proofSeenBoundary) != 0#64) = true at back
  rw [Bool.and_eq_true, beq_iff_eq, bne_iff_ne, boundary_iff] at back
  have absent : root.hash ∉ hashesOf cells := by
    rw [← h.loaded, ← loaded_iff, not_not]
    exact back.1
  rw [UInt64.le_iff_toNat_le, h.bytes]
  exact le_shardBytes ((h.boundary _ absent).mp back.2) absent

end Answers

/-! ## Calls -/

theorem nextChunk_append {roots : List LoadedCell} :
    ∀ {mask : BitVec 32}, (nextChunk mask roots).1 ++ (nextChunk mask roots).2 = roots := by
  induction roots with
  | nil =>
    intro mask
    rfl
  | cons root rest ih =>
    intro mask
    unfold nextChunk
    dsimp only
    split
    · rfl
    · exact congrArg (root :: ·) ih

theorem nextChunk_ne_nil {rest : List LoadedCell} :
    ∃ chunk, (nextChunk 0#32 (root :: rest)).1 = root :: chunk := by
  exact ⟨_, rfl⟩

variable {fuel : Nat} {threads : List (List EstimatorCall)} {events' : List EstimatorEvent}

theorem windowChunks_flatten : ∀ {window : List LoadedCell}, window.length ≤ fuel →
    (windowChunks fuel window).flatten = window := by
  induction fuel with
  | zero =>
    intro window le
    obtain rfl : window = [] := eq_nil_of_length_eq_zero (by omega)
    rfl
  | succ fuel ih =>
    intro window le
    match window with
    | [] => rfl
    | root :: rest =>
      have whole := @nextChunk_append (root :: rest) 0#32
      obtain ⟨chunk, first⟩ := @nextChunk_ne_nil root rest
      have shorter := congrArg List.length whole
      rw [first, length_append, length_cons] at shorter
      simp only [windowChunks, flatten_cons]
      rw [ih (by omega), whole]

theorem batchChunks_flatten : ∀ {roots : List LoadedCell}, roots.length ≤ fuel →
    (batchChunks fuel roots).flatten = roots := by
  induction fuel with
  | zero =>
    intro roots le
    obtain rfl : roots = [] := eq_nil_of_length_eq_zero (by omega)
    rfl
  | succ fuel ih =>
    intro roots le
    match roots with
    | [] => rfl
    | root :: rest =>
      have shorter : ((root :: rest).drop proofEstimatorBatchMaxCells).length ≤ fuel := by
        rw [length_drop, length_cons]
        rw [length_cons] at le
        unfold proofEstimatorBatchMaxCells
        omega
      simp only [batchChunks, flatten_append]
      rw [windowChunks_flatten (Nat.le_refl _), ih shorter, take_append_drop]

theorem addLoadedCells_flatten (roots : List LoadedCell) : (addLoadedCells roots).flatten = roots :=
  batchChunks_flatten (Nat.le_refl _)

/-- The records of a call. -/
def EstimatorCall.events : EstimatorCall → List EstimatorEvent
  | addLoadedCell root => [.load root]
  | addLoadedCells roots => roots.map .load
  | addExecutionRead none => []
  | addExecutionRead (some hash) => [.read hash]

theorem EstimatorCall.steps_events (call : EstimatorCall) :
    call.steps.flatMap EstimatorStep.events = call.events := by
  match call with
  | .addLoadedCell root => rfl
  | .addLoadedCells roots =>
    have chunks (chunks : List (List LoadedCell)) :
        (chunks.map EstimatorStep.charges).flatMap EstimatorStep.events =
          chunks.flatten.map EstimatorEvent.load := by
      induction chunks with
      | nil => rfl
      | cons chunk rest ih =>
        rw [map_cons, flatMap_cons, ih, flatten_cons, map_append]
        rfl
    unfold EstimatorCall.steps EstimatorCall.events
    rw [chunks, addLoadedCells_flatten]
  | .addExecutionRead none => rfl
  | .addExecutionRead (some hash) => rfl

/-- The records of all calls of all threads. -/
def callEvents (threads : List (List EstimatorCall)) : List EstimatorEvent :=
  threads.flatten.flatMap EstimatorCall.events

theorem interleaved_events {steps : List EstimatorStep}
    (interleaved : Lib.Interleaves (threads.map fun calls => calls.flatMap EstimatorCall.steps)
      steps) :
    (steps.flatMap EstimatorStep.events).Perm (callEvents threads) := by
  have calls (calls : List EstimatorCall) :
      (calls.flatMap EstimatorCall.steps).flatMap EstimatorStep.events =
        calls.flatMap EstimatorCall.events := by
    rw [flatMap_assoc]
    exact flatMap_congr fun call _ => call.steps_events
  have all : (threads.map fun calls => calls.flatMap EstimatorCall.steps).flatten =
      threads.flatten.flatMap EstimatorCall.steps := by
    rw [← flatMap_def, flatten_eq_flatMap, flatMap_assoc]
    rfl
  have moved := interleaved.perm.flatMap_right EstimatorStep.events
  rw [all, calls] at moved
  exact moved

theorem loadedOf_perm {events : List EstimatorEvent} (perm : events.Perm events') :
    loadedOf events = loadedOf events' :=
  toFinset_eq_of_perm _ _ (perm.filterMap _)

theorem readsOf_perm {events : List EstimatorEvent} (perm : events.Perm events') :
    readsOf events = readsOf events' :=
  toFinset_eq_of_perm _ _ (perm.filterMap _)

/-- Whatever the order in which calls of several goroutines interleave, at every moment the
estimate is that of the cells loaded so far, no counter is taken below zero and the proof emits
exactly what was loaded or read; at the end that is what the calls name. This needs every child of
a cell that is loaded for the first time to be loaded or referenced before an execution read of
it, and hashes that stand for one cell each and fit into the tables. -/
theorem proof_estimate_of_read_set (expectedReadCells : Int) {threads : List (List EstimatorCall)}
    {steps : List EstimatorStep}
    (interleaved : Lib.Interleaves (threads.map fun calls => calls.flatMap EstimatorCall.steps)
      steps)
    (coherent : Coherent (loadedOf (callEvents threads)))
    (fits : Fits (knownOf (callEvents threads)))
    (inOrder : ReadsFollowReferences (steps.flatMap EstimatorStep.events)) :
    (∃ e, (newProofSizeEstimator expectedReadCells).run steps = some e ∧
      e.size.toNat = proofBytes (loadedOf (callEvents threads)) ∧
      ∀ hash, e.emitted hash = true ↔ hash ∈ hashesOf (loadedOf (callEvents threads)) ∨
        hash ∈ readsOf (callEvents threads)) ∧
    (∀ done later, steps = done ++ later →
      ∃ e, (newProofSizeEstimator expectedReadCells).run done = some e ∧
        e.size.toNat = proofBytes (loadedOf (done.flatMap EstimatorStep.events)) ∧
        ∀ hash, e.emitted hash = true ↔
          hash ∈ hashesOf (loadedOf (done.flatMap EstimatorStep.events)) ∨
            hash ∈ readsOf (done.flatMap EstimatorStep.events)) ∧
    (∀ before root after, steps.flatMap EstimatorStep.events = before ++ .load root :: after →
      ∃ e, before.foldlM ProofSizeEstimator.record (newProofSizeEstimator expectedReadCells) =
          some e ∧
        (e.withdraws root = true →
          estimatedPrunedBranchBytes ≤ (e.shards (proofEstimatorShardOf root.hash)).bytes)) := by
  have perm := interleaved_events interleaved
  have loaded := loadedOf_perm perm
  have reads := readsOf_perm perm
  have proper : Proper (knownOf (callEvents threads)) (steps.flatMap EstimatorStep.events) :=
    ⟨by unfold knownOf; rw [loaded, reads], loaded ▸ coherent, inOrder⟩
  -- every prefix of the records is one the run lemma speaks of
  have upTo : ∀ before after, steps.flatMap EstimatorStep.events = before ++ after →
      ∃ e, before.foldlM ProofSizeEstimator.record (newProofSizeEstimator expectedReadCells) =
          some e ∧
        Records e (knownOf (callEvents threads)) (loadedOf before) (childrenOf (loadedOf before))
          (readsOf before) ∧
        Allowed (knownOf (callEvents threads)) (loadedOf before)
          (childrenOf (loadedOf before)) := by
    intro before after same
    rw [same] at proper
    obtain ⟨e, run, records⟩ := records_run expectedReadCells fits proper.of_append
    exact ⟨e, run, records, proper.of_append.allowed fits⟩
  have steady : ∀ done later, steps = done ++ later →
      ∃ e, (newProofSizeEstimator expectedReadCells).run done = some e ∧
        e.size.toNat = proofBytes (loadedOf (done.flatMap EstimatorStep.events)) ∧
        ∀ hash, e.emitted hash = true ↔
          hash ∈ hashesOf (loadedOf (done.flatMap EstimatorStep.events)) ∨
            hash ∈ readsOf (done.flatMap EstimatorStep.events) := by
    intro done later same
    obtain ⟨e, run, records, allowed⟩ := upTo (done.flatMap EstimatorStep.events)
      (later.flatMap EstimatorStep.events) (by rw [same, flatMap_append])
    refine ⟨e, ?_, records.size allowed, records.emitted⟩
    rw [run_eq_records, run]
    intro first rest split e' run'
    obtain ⟨_, same', records', -⟩ := upTo (first.flatMap EstimatorStep.events)
      ((rest ++ later).flatMap EstimatorStep.events) (by
        rw [same, split, append_assoc, flatMap_append])
    rw [run'] at same'
    cases same'
    exact records'.unsealed
  refine ⟨?_, steady, ?_⟩
  · obtain ⟨e, run, size, emitted⟩ := steady steps [] (append_nil steps).symm
    rw [loaded] at size emitted
    rw [reads] at emitted
    exact ⟨e, run, size, emitted⟩
  · intro before root after same
    obtain ⟨e, run, records, -⟩ := upTo before (.load root :: after) same
    exact ⟨e, run, records.withdraws⟩

/-! ## Two orders -/

/-- A hash that ends in the given byte. -/
def hashEndingIn (last : UInt8) : CellHash := Vector.ofFn fun i => if i.val = 31 then last else 7

/-- A leaf of three bytes. -/
def smallLeaf : LoadedCell := ⟨hashEndingIn 1, 24, [], by decide, by decide⟩

/-- A cell of three bytes over the leaf. -/
def smallParent : LoadedCell := ⟨hashEndingIn 0, 24, [smallLeaf.hash], by decide, by decide⟩

theorem smallFits {known : Finset CellHash} (few : known.card < 2 ^ 29) : Fits known := by
  intro i
  exact Nat.lt_of_le_of_lt (Finset.card_filter_le _ _) few

/-- The leaf is loaded, then its parent, then the executor reads the leaf. -/
theorem proof_estimate_of_read_set_leaf_first :
    (∃ e, (newProofSizeEstimator 0).run [.charges [smallLeaf], .charges [smallParent],
        .executionRead (some smallLeaf.hash)] = some e ∧ e.size.toNat = 19) := by
  have interleaved : Lib.Interleaves
      ([[EstimatorCall.addLoadedCell smallLeaf, .addLoadedCell smallParent],
        [.addExecutionRead (some smallLeaf.hash)]].map fun calls =>
          calls.flatMap EstimatorCall.steps)
      [.charges [smallLeaf], .charges [smallParent], .executionRead (some smallLeaf.hash)] := by
    refine @Lib.Interleaves.step _ [] _ _ _ _ ?_
    refine @Lib.Interleaves.step _ [] _ _ _ _ ?_
    refine @Lib.Interleaves.step _ [[]] [] _ [] _ ?_
    exact .done (by simp)
  have inOrder : ReadsFollowReferences ([EstimatorStep.charges [smallLeaf],
      .charges [smallParent], .executionRead (some smallLeaf.hash)].flatMap
        EstimatorStep.events) := by
    intro before root after same _ ref _ read
    match before, same, read with
    | [], _, read => simp [readsOf] at read
    | [first], same, read =>
      cases same
      simp [readsOf] at read
    | [_, _], same, _ => cases same
    | _ :: _ :: _ :: _, same, _ => simp [EstimatorStep.events] at same
  obtain ⟨⟨e, run, size, -⟩, -⟩ := proof_estimate_of_read_set 0 interleaved (by decide +kernel)
    (smallFits (by decide +kernel)) inOrder
  refine ⟨e, run, size.trans ?_⟩
  decide +kernel

/-- The executor reads the leaf before its parent is loaded. Then the leaf's pruned branch is not
counted while it stands for it, and is taken back all the same when the leaf is loaded: the
counter of its shard goes below zero. -/
theorem read_before_reference :
    (∃ e, (newProofSizeEstimator 0).run [.executionRead (some smallLeaf.hash),
        .charges [smallParent]] = some e ∧ e.size.toNat = 11 ∧
      proofBytes {smallParent} = 52 ∧ e.withdraws smallLeaf = true ∧
      (e.shards (proofEstimatorShardOf smallLeaf.hash)).bytes < estimatedPrunedBranchBytes) ∧
    (∃ e, (newProofSizeEstimator 0).run [.executionRead (some smallLeaf.hash),
        .charges [smallParent], .charges [smallLeaf]] = some e ∧ e.size ≠ 19 ∧
      proofBytes {smallParent, smallLeaf} = 19) := by
  have first : ((newProofSizeEstimator 0).run [.executionRead (some smallLeaf.hash),
      .charges [smallParent]]).map (fun e => (e.size.toNat, e.withdraws smallLeaf,
        (e.shards (proofEstimatorShardOf smallLeaf.hash)).bytes)) = some (11, true, 0) := by
    decide +kernel
  have second : ((newProofSizeEstimator 0).run [.executionRead (some smallLeaf.hash),
      .charges [smallParent], .charges [smallLeaf]]).map (fun e => e.size) =
        some (19 - 41) := by
    decide +kernel
  constructor
  · obtain ⟨e, run, facts⟩ := Option.map_eq_some_iff.mp first
    simp only [Prod.mk.injEq] at facts
    obtain ⟨size, back, empty⟩ := facts
    refine ⟨e, run, size, by decide +kernel, back, ?_⟩
    rw [empty]
    decide
  · obtain ⟨e, run, size⟩ := Option.map_eq_some_iff.mp second
    refine ⟨e, run, ?_, by decide +kernel⟩
    rw [size]
    decide

end Gton.Collator
