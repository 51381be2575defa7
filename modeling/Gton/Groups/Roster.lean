import Gton.Lib.Fenwick
import Gton.Shard.Ident

/-!
# Validator rosters

The validators of one session are chosen twice: by the node that runs the session and by a node
that checks its signatures. The first draws with a list of holes or with a Fenwick tree, the
second with a list of holes over the weights in dictionary order. All three draw the same items.

64-bit weights are naturals: the parsers reject a set whose weights sum past 64 bits.
-/

namespace Gton.Groups

open Gton.Shard
open Gton.Lib
open Gton.Lib.Weighted
open List

abbrev Hash := BitVec 256

/-- `ton.NewValidatorSetPRNG` and `NextRanged`. -/
structure Prng where
  State : Type
  seed : BitVec 64 → BitVec 32 → UInt32 → State
  nextRanged : State → Nat → Nat × State

/-- `NextRanged(n)` is below `n`. -/
def Prng.Below (rng : Prng) : Prop := ∀ s n, 0 < n → (rng.nextRanged s n).1 < n

structure Validator where
  publicKey : Hash
  publicKeyHash : Hash
  adnl : Hash
  weight : Nat
  deriving DecidableEq, Inhabited

/-- `tlb.ValidatorAddr`; a missing address is 32 zero bytes on both sides. -/
structure ValidatorAddr where
  publicKey : Hash
  weight : Nat
  adnl : Hash
  deriving DecidableEq, Inhabited

structure ValidatorSet where
  since : UInt32
  main : Nat
  totalWeight : Nat
  validators : List Validator
  cumulativeWeights : List Nat
  deriving DecidableEq

structure CatchainConfig where
  masterchainLifetime : UInt32
  shardLifetime : UInt32
  shardValidatorsLifetime : UInt32
  shardValidators : UInt32
  shuffleMasterchain : Bool
  deriving DecidableEq

structure RosterInput where
  set : ValidatorSet
  workchain : BitVec 32
  shard : BitVec 64
  catchainSeqno : UInt32
  catchain : CatchainConfig

/-- `sort.Search`: the first index a monotone predicate holds at. -/
def sortSearch (n : Nat) (f : Nat → Bool) : Nat := ((List.range n).find? f).getD n

/-- The shuffle both sides make for the masterchain. -/
def shuffle (rng : Prng) : Nat → Nat → rng.State → List Nat → List Nat
  | 0, _, _, indices => indices
  | left + 1, i, state, indices =>
    let (j, state) := rng.nextRanged state (i + 1)
    let indices := indices.set i (indices.getD j 0)
    shuffle rng left (i + 1) state (indices.set j i)

/-! ## The session's own choice -/

def selectMasterchainRoster (rng : Prng) (input : RosterInput) : List Validator :=
  let count := min input.set.main input.set.validators.length
  if !input.catchain.shuffleMasterchain then input.set.validators.take count
  else
    let indices := shuffle rng count 0 (rng.seed input.shard input.workchain input.catchainSeqno)
      (List.replicate count 0)
    indices.map fun index => input.set.validators.getD index default

/-- A drawn validator weighs one. -/
def Validator.drawn (v : Validator) : Validator := { v with weight := 1 }

/-- The loop of `selectShardRosterWithHoles`. -/
def drawWithHoles (rng : Prng) (set : ValidatorSet) :
    Nat → rng.State → Nat → List Hole → List Validator
  | 0, _, _, _ => []
  | count + 1, state, remainingWeight, holes =>
    let (position, state) := rng.nextRanged state remainingWeight
    let position := shift holes position
    let index := sortSearch set.validators.length fun i =>
      position < set.cumulativeWeights.getD i 0 + (set.validators.getD i default).weight
    let validator := set.validators.getD index default
    let hole : Hole := ⟨set.cumulativeWeights.getD index 0, validator.weight⟩
    validator.drawn :: drawWithHoles rng set count state (remainingWeight - validator.weight)
      (insertHole (fun h => h.start > hole.start) hole holes)

/-- The loop of `selectShardRosterWithFenwick`; the tree has one node for each validator. -/
def drawWithFenwick (rng : Prng) (set : ValidatorSet) :
    Nat → rng.State → Nat → (Nat → Nat) → List Validator
  | 0, _, _, _ => []
  | count + 1, state, remainingWeight, tree =>
    let n := set.validators.length
    let (position, state) := rng.nextRanged state remainingWeight
    let index := Fenwick.search tree n n.size 0 position
    let validator := set.validators.getD index default
    validator.drawn :: drawWithFenwick rng set count state (remainingWeight - validator.weight)
      (Fenwick.remove n validator.weight n (index + 1) tree)

def shardRosterHoleLimit : Nat := 64

def useShardRosterHoles (count validatorCount : Nat) : Bool :=
  count ≤ shardRosterHoleLimit || count ≤ validatorCount / count

/-- `selectShardRosterWithCumulativeWeights`. -/
def selectShardRoster (rng : Prng) (input : RosterInput) : List Validator :=
  let set := input.set
  let count := min input.catchain.shardValidators.toNat set.validators.length
  let state := rng.seed input.shard input.workchain input.catchainSeqno
  if useShardRosterHoles count set.validators.length then
    drawWithHoles rng set count state set.totalWeight []
  else
    drawWithFenwick rng set count state set.totalWeight
      (Fenwick.build set.validators.length fun i => (set.validators.getD i default).weight)

def selectRoster (rng : Prng) (input : RosterInput) : List Validator :=
  if input.workchain = -1#32 then selectMasterchainRoster rng input
  else selectShardRoster rng input

/-- Why no set is chosen for the next session. -/
inductive TentativeError
  | zeroLifetime
  | overflow
  deriving DecidableEq

def selectTentativeValidatorSet (current : ValidatorSet) (next : Option ValidatorSet)
    (genUTime catchainLifetime : UInt32) : Except TentativeError ValidatorSet :=
  match next with
  | none => .ok current
  | some next =>
    if catchainLifetime = 0 then .error .zeroLifetime
    else
      let lifetime := catchainLifetime.toNat
      let boundary := (genUTime.toNat / lifetime + 1) * lifetime
      if boundary > 4294967295 then .error .overflow
      else if next.since.toNat ≤ boundary then .ok next else .ok current

/-- `ValidatorAddrs`. -/
def Validator.toAddr (v : Validator) : ValidatorAddr := ⟨v.publicKey, v.weight, v.adnl⟩

def validatorAddrs (validators : List Validator) : List ValidatorAddr := validators.map (·.toAddr)

/-! ## The checking node's choice -/

structure ValidatorEntry where
  addr : ValidatorAddr
  key : Nat
  cumWeight : Nat
  deriving DecidableEq, Inhabited

structure ValidatorSetParams where
  entries : List ValidatorEntry
  main : Nat
  totalWeight : Nat
  deriving DecidableEq

/-- Why a block has no validators. -/
inductive RosterError
  | zeroTotalWeight
  | invalidTotal
  | entryCount
  | outsideTotal
  | zeroWeight
  | overflow
  | notContiguous
  | incorrectTotalWeight
  | unknownConstructor
  | zeroValidators
  | zeroShardValidators
  | exhausted
  | noEntry
  | paramAbsent
  deriving DecidableEq

def cloneValidatorAddr (addr : ValidatorAddr) (weight : Nat) : ValidatorAddr := { addr with weight }

def masterchainValidatorsForSet (rng : Prng) (shard : BitVec 64) (workchain : BitVec 32)
    (params : ValidatorSetParams) (ccSeqno : UInt32) (shuffled : Bool) : List ValidatorAddr :=
  let count := min params.main params.entries.length
  let indices :=
    if shuffled then
      shuffle rng count 0 (rng.seed shard workchain ccSeqno) (List.replicate count 0)
    else List.range count
  indices.map fun i =>
    let addr := (params.entries.getD i default).addr
    cloneValidatorAddr addr addr.weight

def validatorAtWeight (entries : List ValidatorEntry) (weight : Nat) :
    Except RosterError ValidatorEntry :=
  let idx := sortSearch entries.length fun i => weight < (entries.getD i default).cumWeight
  if idx = 0 then .error .noEntry else .ok (entries.getD (idx - 1) default)

/-- The loop of `shardValidatorsForSet`. -/
def drawForBlock (rng : Prng) (entries : List ValidatorEntry) :
    Nat → rng.State → Nat → List Hole → Except RosterError (List ValidatorAddr)
  | 0, _, _, _ => .ok []
  | count + 1, state, totalWeight, holes =>
    if totalWeight = 0 then .error .exhausted
    else
      let (p, state) := rng.nextRanged state totalWeight
      match validatorAtWeight entries (shift holes p) with
      | .error e => .error e
      | .ok entry =>
        let hole : Hole := ⟨entry.cumWeight, entry.addr.weight⟩
        let after (h : Hole) : Bool :=
          if h.start ≠ hole.start then h.start > hole.start else h.weight > hole.weight
        (cloneValidatorAddr entry.addr 1 :: ·) <$>
          drawForBlock rng entries count state (totalWeight - entry.addr.weight)
            (insertHole after hole holes)

def shardValidatorsForSet (rng : Prng) (shard : BitVec 64) (workchain : BitVec 32)
    (params : ValidatorSetParams) (ccSeqno shardValidatorsNum : UInt32) :
    Except RosterError (List ValidatorAddr) :=
  let count := min shardValidatorsNum.toNat params.entries.length
  if count = 0 then .error .zeroShardValidators
  else
    drawForBlock rng params.entries count (rng.seed shard workchain ccSeqno) params.totalWeight []

/-! ## What is drawn -/

/-- The items drawn one after the other. -/
def draws (rng : Prng) : Nat → rng.State → Slots → List Nat
  | 0, _, _ => []
  | count + 1, state, s =>
    let (position, state) := rng.nextRanged state (remaining s)
    let index := locate s position
    index :: draws rng count state (Weighted.take s index)

variable {i position : Nat} {f : Nat → Bool} {input : RosterInput}

theorem sortSearch_eq {n : Nat} (lt : i < n) (here : f i = true)
    (before : ∀ j < i, f j = false) : sortSearch n f = i := by
  unfold sortSearch
  have found : (List.range n).find? f = some i :=
    find?_range_eq_some.mpr ⟨here, mem_range.mpr lt, fun j hj => by simp [before j hj]⟩
  rw [found]
  rfl

theorem sortSearch_none {n : Nat} (none : ∀ j < n, f j = false) : sortSearch n f = n := by
  unfold sortSearch
  have missing : (List.range n).find? f = .none :=
    find?_eq_none.mpr fun j mem => by simp [none j (mem_range.mp mem)]
  rw [missing]
  rfl

/-- The validators at these indices, as a shard's roster lists them. -/
def ValidatorSet.roster (set : ValidatorSet) (indices : List Nat) : List Validator :=
  indices.map fun i => (set.validators.getD i default).drawn

/-- The weights of a set. -/
abbrev ValidatorSet.weights (set : ValidatorSet) : List Nat := set.validators.map (·.weight)

/-- What the parser ensures of the weights. -/
structure ValidatorSet.Line (set : ValidatorSet) : Prop where
  cumulative : ∀ i < set.validators.length, set.cumulativeWeights.getD i 0 =
    (set.weights.take i).sum
  total : set.totalWeight = set.weights.sum
  positive : ∀ w ∈ set.weights, 0 < w
  small : set.validators.length < 2 ^ 63

section Draw

variable {rng : Prng} {set : ValidatorSet} {s : Slots} {count : Nat}

theorem ValidatorSet.getD_weight (set : ValidatorSet) (i : Nat) :
    (set.validators.getD i default).weight = set.weights.getD i 0 := by
  rw [getD_eq_getElem?_getD, getD_eq_getElem?_getD, getElem?_map]
  cases set.validators[i]? <;> rfl

theorem ValidatorSet.Line.ends (line : set.Line) (lt : i < set.validators.length) :
    set.cumulativeWeights.getD i 0 + (set.validators.getD i default).weight =
      (set.weights.take (i + 1)).sum := by
  rw [line.cumulative i lt, getD_eq_getElem _ _ lt, take_add_one, getElem?_map,
    getElem?_eq_getElem lt]
  simp

theorem ValidatorSet.Line.index_eq (line : set.Line) (h : Drawable set.weights s (count + 1))
    (lt : position < remaining s) :
    (sortSearch set.validators.length fun i => shift (holesFrom 0 s) position <
      set.cumulativeWeights.getD i 0 + (set.validators.getD i default).weight) =
        locate s position := by
  have spans := h.shift_spans lt
  obtain ⟨w, -, inside, -⟩ := h.item lt
  rw [length_map] at inside
  apply sortSearch_eq inside
  · rw [line.ends inside, decide_eq_true_eq, ← Nat.not_le, spans]
    omega
  · intro j before
    rw [line.ends (by omega), decide_eq_false_iff_not, Nat.not_lt, spans]
    omega

/-- The indices the loop of `drawWithHoles` looks up. -/
def holeIndices (rng : Prng) (set : ValidatorSet) :
    Nat → rng.State → Nat → List Hole → List Nat
  | 0, _, _, _ => []
  | count + 1, state, remainingWeight, holes =>
    let (position, state) := rng.nextRanged state remainingWeight
    let index := sortSearch set.validators.length fun i => shift holes position <
      set.cumulativeWeights.getD i 0 + (set.validators.getD i default).weight
    let weight := (set.validators.getD index default).weight
    let hole : Hole := ⟨set.cumulativeWeights.getD index 0, weight⟩
    index :: holeIndices rng set count state (remainingWeight - weight)
      (insertHole (fun h => h.start > hole.start) hole holes)

/-- The indices the loop of `drawWithFenwick` looks up. -/
def fenwickIndices (rng : Prng) (set : ValidatorSet) :
    Nat → rng.State → Nat → (Nat → Nat) → List Nat
  | 0, _, _, _ => []
  | count + 1, state, remainingWeight, tree =>
    let n := set.validators.length
    let (position, state) := rng.nextRanged state remainingWeight
    let index := Fenwick.search tree n n.size 0 position
    let weight := (set.validators.getD index default).weight
    index :: fenwickIndices rng set count state (remainingWeight - weight)
      (Fenwick.remove n weight n (index + 1) tree)

theorem drawWithHoles_eq (state : rng.State) (left : Nat) (holes : List Hole) :
    drawWithHoles rng set count state left holes =
      set.roster (holeIndices rng set count state left holes) := by
  induction count generalizing state left holes with
  | zero => rfl
  | succ count ih => exact congrArg _ (ih _ _ _)

theorem drawWithFenwick_eq (state : rng.State) (left : Nat) (tree : Nat → Nat) :
    drawWithFenwick rng set count state left tree =
      set.roster (fenwickIndices rng set count state left tree) := by
  induction count generalizing state left tree with
  | zero => rfl
  | succ count ih => exact congrArg _ (ih _ _ _)

section

variable (below : rng.Below) (line : set.Line) (state : rng.State)
  (h : Drawable set.weights s count)
include below line state h

theorem holeIndices_eq :
    holeIndices rng set count state (remaining s) (holesFrom 0 s) = draws rng count state s := by
  induction count generalizing state s with
  | zero => rfl
  | succ count ih =>
    have lt := below state _ h.pos
    obtain ⟨w, item, inside, weight, left⟩ := h.item lt
    rw [← set.getD_weight] at weight
    rw [length_map] at inside
    have opened := h.insertHole_eq item (fun h' => h'.start > start s
      (locate s (rng.nextRanged state (remaining s)).1)) (by simp) (by simp; omega)
    simp only [holeIndices, draws, line.index_eq h lt, weight, line.cumulative _ inside,
      ← h.start_eq]
    rw [opened, left, ih _ (h.next item)]

theorem fenwickIndices_eq {tree : Nat → Nat}
    (holds : Fenwick.Holds tree (Fenwick.weightLeft s) s.length) :
    fenwickIndices rng set count state (remaining s) tree = draws rng count state s := by
  induction count generalizing state s tree with
  | zero => rfl
  | succ count ih =>
    have len : s.length = set.validators.length := by simpa using h.length
    have small : s.length < 2 ^ 63 := len ▸ line.small
    have lt := below state _ h.pos
    obtain ⟨w, item, -, weight, left⟩ := h.item lt
    rw [← set.getD_weight] at weight
    have removed := Fenwick.remove_take holds small item
    have same : (Weighted.take s (locate s (rng.nextRanged state (remaining s)).1)).length =
        s.length := by
      have := (h.next item).length
      rw [this, h.length]
    simp only [fenwickIndices, draws]
    rw [← len, Fenwick.search_eq_locate holds small lt, weight, left]
    rw [ih _ (h.next item) (by rw [same]; exact removed)]

omit below line state h in
theorem weightLeft_fresh (weights : List Nat) :
    Fenwick.weightLeft (fresh weights) = fun i => weights.getD i 0 := by
  funext i
  unfold Fenwick.weightLeft fresh
  rw [getElem?_map, getD_eq_getElem?_getD]
  cases weights[i]? <;> rfl

omit h in
theorem holeIndices_fresh (le : count ≤ set.validators.length) :
    holeIndices rng set count state set.totalWeight [] =
      draws rng count state (fresh set.weights) := by
  have h : Drawable set.weights (fresh set.weights) count :=
    .of_fresh line.positive (by rwa [length_map])
  rw [line.total, ← remaining_fresh, ← holesFrom_fresh 0, holeIndices_eq below line state h]

omit h in
theorem fenwickIndices_fresh (le : count ≤ set.validators.length) :
    fenwickIndices rng set count state set.totalWeight
      (Fenwick.build set.validators.length fun i => (set.validators.getD i default).weight) =
      draws rng count state (fresh set.weights) := by
  have h : Drawable set.weights (fresh set.weights) count :=
    .of_fresh line.positive (by rwa [length_map])
  have len : (fresh set.weights).length = set.validators.length := by simp [fresh]
  rw [line.total, ← remaining_fresh]
  apply fenwickIndices_eq below line state h
  rw [weightLeft_fresh, len]
  simp only [← set.getD_weight]
  exact Fenwick.build_holds line.small

end

theorem selectShardRoster_eq (below : rng.Below) (line : input.set.Line) :
    selectShardRoster rng input = input.set.roster
        (draws rng (min input.catchain.shardValidators.toNat input.set.validators.length)
          (rng.seed input.shard input.workchain input.catchainSeqno)
          (fresh input.set.weights)) := by
  unfold selectShardRoster
  dsimp only
  split
  · rw [drawWithHoles_eq, holeIndices_fresh below line _ (Nat.min_le_right _ _)]
  · rw [drawWithFenwick_eq, fenwickIndices_fresh below line _ (Nat.min_le_right _ _)]

end Draw

/-! ## The two choices agree -/

/-- The entries of a set, as the checking node reads them. -/
def ValidatorSet.entries (set : ValidatorSet) : List ValidatorEntry :=
  set.validators.mapIdx fun i v => ⟨v.toAddr, i, (set.weights.take i).sum⟩

/-- The set the checking node reads. -/
def ValidatorSet.params (set : ValidatorSet) : ValidatorSetParams :=
  ⟨set.entries, set.main, set.totalWeight⟩

section Agree

variable {rng : Prng} {set : ValidatorSet} {s : Slots} {count : Nat}

theorem ValidatorSet.length_entries (set : ValidatorSet) :
    set.entries.length = set.validators.length := by
  simp [ValidatorSet.entries]

theorem ValidatorSet.getElem?_entries (set : ValidatorSet) (i : Nat) :
    set.entries[i]? =
      set.validators[i]?.map fun v => ⟨v.toAddr, i, (set.weights.take i).sum⟩ := by
  simp [ValidatorSet.entries]

theorem ValidatorSet.getD_entries (set : ValidatorSet) (lt : i < set.validators.length) :
    set.entries.getD i default =
      ⟨(set.validators.getD i default).toAddr, i, (set.weights.take i).sum⟩ := by
  rw [getD_eq_getElem?_getD, getD_eq_getElem?_getD, set.getElem?_entries,
    getElem?_eq_getElem lt]
  rfl

theorem ValidatorSet.addr_getD_entries (set : ValidatorSet) (i : Nat) :
    (set.entries.getD i default).addr = (set.validators.getD i default).toAddr := by
  rw [getD_eq_getElem?_getD, getD_eq_getElem?_getD, set.getElem?_entries]
  cases set.validators[i]? <;> rfl

theorem validatorAtWeight_eq (h : Drawable set.weights s (count + 1))
    (lt : position < remaining s) :
    validatorAtWeight set.entries (shift (holesFrom 0 s) position) =
      .ok (set.entries.getD (locate s position) default) := by
  have spans := h.shift_spans lt
  obtain ⟨w, -, inside, -⟩ := h.item lt
  rw [length_map] at inside
  have before : ∀ j < locate s position + 1,
      decide (shift (holesFrom 0 s) position < (set.entries.getD j default).cumWeight) = false := by
    intro j le
    rw [set.getD_entries (by omega), decide_eq_false_iff_not, Nat.not_lt]
    exact (spans j).mpr (by omega)
  have found : (sortSearch set.entries.length fun i =>
      decide (shift (holesFrom 0 s) position < (set.entries.getD i default).cumWeight)) =
        locate s position + 1 := by
    rw [set.length_entries]
    rcases Nat.lt_or_ge (locate s position + 1) set.validators.length with more | last
    · apply sortSearch_eq more _ before
      rw [set.getD_entries more, decide_eq_true_eq, ← Nat.not_le]
      exact fun le => absurd ((spans _).mp le) (by omega)
    · have all : set.validators.length = locate s position + 1 := by omega
      rw [all]
      exact sortSearch_none before
  unfold validatorAtWeight
  rw [found]
  rfl

theorem drawForBlock_eq (below : rng.Below) (state : rng.State)
    (h : Drawable set.weights s count) :
    drawForBlock rng set.entries count state (remaining s) (holesFrom 0 s) =
      .ok ((draws rng count state s).map fun i =>
        (set.validators.getD i default).drawn.toAddr) := by
  induction count generalizing state s with
  | zero => rfl
  | succ count ih =>
    have pos := h.pos
    have lt := below state _ pos
    obtain ⟨w, item, inside, weight, left⟩ := h.item lt
    rw [length_map] at inside
    have weight : (set.validators.getD (locate s (rng.nextRanged state (remaining s)).1)
        default).toAddr.weight = w := (set.getD_weight _).trans weight
    have opened := h.insertHole_eq item (fun h' =>
      if h'.start ≠ start s (locate s (rng.nextRanged state (remaining s)).1) then
        h'.start > start s (locate s (rng.nextRanged state (remaining s)).1)
      else h'.weight > w)
      (by intro h' above; rw [if_pos (by omega), decide_eq_true_eq]; exact above)
      (by intro h' under; rw [if_pos (by omega), decide_eq_false_iff_not]; omega)
    simp only [drawForBlock, if_neg (Nat.pos_iff_ne_zero.mp pos), validatorAtWeight_eq h lt,
      set.getD_entries inside, weight, ← h.start_eq]
    rw [opened, left, ih _ (h.next item)]
    rfl

theorem shardValidatorsForSet_eq (below : rng.Below)
    (line : input.set.Line) (some_ : 0 < input.catchain.shardValidators)
    (present : input.set.validators ≠ []) :
    shardValidatorsForSet rng input.shard input.workchain input.set.params input.catchainSeqno
      input.catchain.shardValidators = .ok (validatorAddrs (selectShardRoster rng input)) := by
  have h : Drawable input.set.weights (fresh input.set.weights)
      (min input.catchain.shardValidators.toNat input.set.validators.length) :=
    .of_fresh line.positive (by rw [length_map]; exact Nat.min_le_right _ _)
  have total : input.set.params.totalWeight = remaining (fresh input.set.weights) := by
    rw [remaining_fresh]
    exact line.total
  have count : min input.catchain.shardValidators.toNat input.set.validators.length ≠ 0 := by
    have := UInt32.lt_iff_toNat_lt.mp some_
    have := length_pos_iff.mpr present
    omega
  have drawn := drawForBlock_eq below (rng.seed input.shard input.workchain input.catchainSeqno) h
  rw [holesFrom_fresh] at drawn
  unfold shardValidatorsForSet
  simp only [total]
  change (if min _ input.set.entries.length = 0 then _ else
    drawForBlock rng input.set.entries (min _ input.set.entries.length) _ _ _) = _
  rw [input.set.length_entries, if_neg count, drawn, selectShardRoster_eq below line]
  simp [validatorAddrs, ValidatorSet.roster, Function.comp_def]

theorem masterchainValidatorsForSet_eq (input : RosterInput) :
    masterchainValidatorsForSet rng input.shard input.workchain input.set.params
      input.catchainSeqno input.catchain.shuffleMasterchain =
        validatorAddrs (selectMasterchainRoster rng input) := by
  unfold masterchainValidatorsForSet selectMasterchainRoster validatorAddrs
  simp only [ValidatorSet.params, input.set.length_entries, input.set.addr_getD_entries]
  cases input.catchain.shuffleMasterchain with
  | true =>
    simp only [if_true, Bool.not_true, Bool.false_eq_true, if_false, map_map]
    rfl
  | false =>
    simp only [Bool.false_eq_true, if_false, Bool.not_false, if_true]
    apply ext_getElem?
    intro i
    rw [getElem?_map, getElem?_map, List.getElem?_take]
    by_cases lt : i < min input.set.main input.set.validators.length
    · have inside : i < input.set.validators.length := by omega
      rw [getElem?_range lt, if_pos lt, getElem?_eq_getElem inside, Option.map_some,
        Option.map_some, getD_eq_getElem _ _ inside]
      rfl
    · rw [if_neg lt, getElem?_eq_none (by rw [length_range]; omega)]
      rfl

end Agree

end Gton.Groups
