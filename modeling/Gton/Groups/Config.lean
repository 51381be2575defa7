import Gton.Groups.Roster
import Gton.Lib.Fallible

/-!
# Validator-group configuration

The configuration parameters a masterchain state carries, as they are decoded from their cells,
and the two readings of them: the strict one of the group tracker and the one of a node that
checks signatures. A dictionary is the list of its entries in ascending key order, which is the
order both sides iterate in.
-/

namespace Gton.Groups

open Gton.Lib.Fallible
open List

def maxTotalValidatorWeight : Nat := 2 ^ 61

def maxUint64 : Nat := 2 ^ 64 - 1

/-- A `validator#53` or `validator_addr#73` descriptor. -/
structure RawValidator where
  publicKey : Hash
  weight : Nat
  adnl : Option Hash
  deriving DecidableEq

/-- A `validators#11` or `validators_ext#12` set; only the second declares a total weight. -/
structure RawValidatorSet where
  since : UInt32
  total : UInt16
  main : UInt16
  declaredTotalWeight : Option Nat
  list : List (Nat × RawValidator)
  deriving DecidableEq

/-- Parameter 28. -/
inductive RawCatchain
  | malformed
  | v1 (masterchainLifetime shardLifetime shardValidatorsLifetime shardValidators : UInt32)
  | v2 (flags : Nat) (shuffle : Bool)
      (masterchainLifetime shardLifetime shardValidatorsLifetime shardValidators : UInt32)
  deriving DecidableEq

/-- The parameters the groups are built from; `consensusValid` says whether parameters 29 and
30, which no roster depends on, parse. -/
structure RawConfig where
  catchain : Option RawCatchain
  consensusValid : Bool
  previousValidators : Option RawValidatorSet
  currentValidators : Option RawValidatorSet
  currentTemporary : Option RawValidatorSet
  nextValidators : Option RawValidatorSet
  nextTemporary : Option RawValidatorSet
  deriving DecidableEq

/-- Why the tracker does not take a configuration. -/
inductive ConfigError
  | mainCount
  | zeroTotalWeight
  | entryCount
  | index
  | zeroWeight
  | duplicateKey
  | duplicateKeyHash
  | overflow
  | tooHeavy
  | incorrectTotalWeight
  | catchainFlags
  | catchainConstructor
  | catchainZero
  | consensus
  | notFound
  deriving DecidableEq

/-! ## The tracker's reading -/

/-- `parseValidator`, with `PublicKeyHash` as a parameter. -/
def parseValidator (hash : Hash → Hash) (raw : RawValidator) : Except ConfigError Validator :=
  if raw.weight = 0 then .error .zeroWeight
  else .ok ⟨raw.publicKey, hash raw.publicKey, raw.adnl.getD 0, raw.weight⟩

/-- The loop of `parseValidatorSet`, from entry `i` on: the validators before it, the weight
they sum to, and what they and the rest give. -/
def parseEntries (hash : Hash → Hash) :
    Nat → List Validator → Nat → List (Nat × RawValidator) →
      Except ConfigError (List Validator × List Nat × Nat)
  | _, _, totalWeight, [] => .ok ([], [], totalWeight)
  | i, seen, totalWeight, (index, raw) :: rest =>
    if index ≠ i then .error .index
    else
      match parseValidator hash raw with
      | .error e => .error e
      | .ok validator =>
        if seen.any (·.publicKey == validator.publicKey) then .error .duplicateKey
        else if seen.any (·.publicKeyHash == validator.publicKeyHash) then .error .duplicateKeyHash
        else if maxUint64 - totalWeight < validator.weight then .error .overflow
        else
          match parseEntries hash (i + 1) (seen ++ [validator])
            (totalWeight + validator.weight) rest with
          | .error e => .error e
          | .ok (validators, cumulative, sum) =>
            .ok (validator :: validators, totalWeight :: cumulative, sum)

def parseValidatorSet (hash : Hash → Hash) (raw : RawValidatorSet) :
    Except ConfigError ValidatorSet :=
  if raw.main = 0 ∨ raw.main > raw.total then .error .mainCount
  else if raw.declaredTotalWeight = some 0 then .error .zeroTotalWeight
  else if raw.list.length ≠ raw.total.toNat then .error .entryCount
  else
    match parseEntries hash 0 [] 0 raw.list with
    | .error e => .error e
    | .ok (validators, cumulativeWeights, totalWeight) =>
      if totalWeight > maxTotalValidatorWeight then .error .tooHeavy
      else if raw.declaredTotalWeight.any (· ≠ totalWeight) then .error .incorrectTotalWeight
      else .ok ⟨raw.since, raw.main.toNat, totalWeight, validators, cumulativeWeights⟩

/-- The checks every catchain parameter passes. -/
def CatchainConfig.checked (c : CatchainConfig) : Except ConfigError CatchainConfig :=
  if c.masterchainLifetime = 0 ∨ c.shardLifetime = 0 ∨ c.shardValidatorsLifetime = 0 ∨
      c.shardValidators = 0 then .error .catchainZero
  else .ok c

def parseCatchainConfig : Option RawCatchain → Except ConfigError CatchainConfig
  | none => .ok ⟨200, 200, 3000, 7, false⟩
  | some .malformed => .error .catchainConstructor
  | some (.v1 mc shard validatorsLifetime validators) =>
    CatchainConfig.checked ⟨mc, shard, validatorsLifetime, validators, false⟩
  | some (.v2 flags shuffle mc shard validatorsLifetime validators) =>
    if flags ≠ 0 then .error .catchainFlags
    else CatchainConfig.checked ⟨mc, shard, validatorsLifetime, validators, shuffle⟩

structure Config where
  catchain : CatchainConfig
  activeValidators : ValidatorSet
  nextValidators : Option ValidatorSet
  deriving DecidableEq

/-- An absent set stays absent. -/
def parseOptionalSet (hash : Hash → Hash) :
    Option RawValidatorSet → Except ConfigError (Option ValidatorSet)
  | none => .ok none
  | some raw => some <$> parseValidatorSet hash raw

def parseConfig (hash : Hash → Hash) (root : RawConfig) : Except ConfigError Config := do
  let catchain ← parseCatchainConfig root.catchain
  require root.consensusValid .consensus
  let _ ← parseOptionalSet hash root.previousValidators
  let current ← parseOptionalSet hash root.currentValidators
  let currentTemporary ← parseOptionalSet hash root.currentTemporary
  let nextPersistent ← parseOptionalSet hash root.nextValidators
  let nextTemporary ← parseOptionalSet hash root.nextTemporary
  match current with
  | none => .error .notFound
  | some current =>
    return ⟨catchain, currentTemporary.getD current, nextTemporary.or nextPersistent⟩

/-! ## The checking node's reading -/

def loadValidatorAddr (raw : RawValidator) : ValidatorAddr :=
  ⟨raw.publicKey, raw.weight, raw.adnl.getD 0⟩

/-- The loop of `loadValidatorEntries`. -/
def loadEntries (total : Nat) :
    Nat → List (Nat × RawValidator) → Except RosterError (List ValidatorEntry × Nat)
  | totalWeight, [] => .ok ([], totalWeight)
  | totalWeight, (key, raw) :: rest =>
    let addr := loadValidatorAddr raw
    if key ≥ total then .error .outsideTotal
    else if addr.weight = 0 then .error .zeroWeight
    else if maxUint64 - totalWeight < addr.weight then .error .overflow
    else
      match loadEntries total (totalWeight + addr.weight) rest with
      | .error e => .error e
      | .ok (entries, sum) => .ok (⟨addr, key, totalWeight⟩ :: entries, sum)

def loadValidatorEntries (dict : List (Nat × RawValidator)) (total : Nat) :
    Except RosterError (List ValidatorEntry × Nat) :=
  if total = 0 then .error .invalidTotal
  else if dict.length ≠ total then .error .entryCount
  else
    match loadEntries total 0 dict with
    | .error e => .error e
    | .ok (entries, totalWeight) =>
      let entries := entries.mergeSort fun a b => a.key ≤ b.key
      if (entries.map (·.key)) ≠ List.range entries.length then .error .notContiguous
      else .ok (entries, totalWeight)

def loadValidatorSetParams (raw : RawValidatorSet) : Except RosterError ValidatorSetParams :=
  if raw.declaredTotalWeight = some 0 then .error .zeroTotalWeight
  else
    let main := if raw.main = 0 then raw.total else raw.main
    match loadValidatorEntries raw.list raw.total.toNat with
    | .error e => .error e
    | .ok (entries, sumWeight) =>
      if raw.declaredTotalWeight.any (sumWeight ≠ ·) then .error .incorrectTotalWeight
      else .ok ⟨entries, main.toNat, sumWeight⟩

/-- `tlb.CatchainConfig`. -/
inductive CatchainSchema
  | v1 (mcLifetime shardLifetime shardValidatorsLifetime shardValidatorsNum : UInt32)
  | v2 (shuffleMc : Bool) (mcLifetime shardLifetime shardValidatorsLifetime
      shardValidatorsNum : UInt32)
  deriving DecidableEq

/-- `resolveShardTopCatchainConfig`, with the library's `GetCatchainConfig` as a parameter. -/
def resolveShardTopCatchainConfig
    (getCatchainConfig : Option RawCatchain → Except RosterError CatchainSchema)
    (raw : Option RawCatchain) : CatchainSchema :=
  match getCatchainConfig raw with
  | .ok resolved => resolved
  | .error _ => .v2 false 200 200 3000 7

def catchainValidatorOptions : CatchainSchema → Bool × UInt32
  | .v1 _ _ _ validators => (false, validators)
  | .v2 shuffle _ _ _ validators => (shuffle, validators)

def validatorsForBlockWithCatchainConfig (rng : Prng) (workchain : BitVec 32) (shard : BitVec 64)
    (raw : RawValidatorSet) (ccSeqno : UInt32) (catchain : CatchainSchema) :
    Except RosterError (List ValidatorAddr) :=
  let (shuffleMasterchain, shardValidatorsNum) := catchainValidatorOptions catchain
  match loadValidatorSetParams raw with
  | .error e => .error e
  | .ok params =>
    if params.entries = [] then .error .zeroValidators
    else if workchain = -1#32 then
      .ok (masterchainValidatorsForSet rng shard workchain params ccSeqno shuffleMasterchain)
    else shardValidatorsForSet rng shard workchain params ccSeqno shardValidatorsNum

/-! ## The two readings agree -/

section Agree

variable {hash : Hash → Hash} {list : List (Nat × RawValidator)} {total : Nat}
  {raw : RawValidatorSet}

/-- The entries of validators from index `i` on, the ones before them weighing `w`. -/
def entriesFrom : Nat → Nat → List Validator → List ValidatorEntry
  | _, _, [] => []
  | i, w, v :: vs => ⟨v.toAddr, i, w⟩ :: entriesFrom (i + 1) (w + v.weight) vs

theorem entriesFrom_eq (vs : List Validator) : ∀ i w, entriesFrom i w vs =
    vs.mapIdx fun j v => ⟨v.toAddr, i + j, w + ((vs.map (·.weight)).take j).sum⟩ := by
  induction vs with
  | nil =>
    intro i w
    rfl
  | cons v vs ih =>
    intro i w
    rw [entriesFrom, ih, mapIdx_cons]
    simp [Nat.add_assoc, Nat.add_comm, Nat.add_left_comm]

theorem keys_entriesFrom (vs : List Validator) : ∀ i w,
    (entriesFrom i w vs).map (·.key) = List.range' i vs.length := by
  induction vs with
  | nil =>
    intro i w
    rfl
  | cons v vs ih =>
    intro i w
    rw [entriesFrom, map_cons, ih, length_cons, range'_succ]

theorem parseEntries_cons {i w index : Nat} {seen : List Validator} {raw : RawValidator}
    {rest : List (Nat × RawValidator)} {result : List Validator × List Nat × Nat}
    (ok : parseEntries hash i seen w ((index, raw) :: rest) = .ok result) :
    index = i ∧ raw.weight ≠ 0 ∧ ¬ maxUint64 - w < raw.weight ∧
      ∃ v vs cumulative sum, v.toAddr = loadValidatorAddr raw ∧
        (∀ u ∈ seen, u.publicKey ≠ v.publicKey) ∧
        parseEntries hash (i + 1) (seen ++ [v]) (w + raw.weight) rest =
          .ok (vs, cumulative, sum) ∧ result = (v :: vs, w :: cumulative, sum) := by
  obtain ⟨same, ok⟩ := guard_eq_ok.mp ok
  split at ok
  · cases ok
  rename_i v parsed
  obtain ⟨positive, parsed⟩ := guard_eq_ok.mp parsed
  cases parsed
  rw [guard_eq_ok, guard_eq_ok, guard_eq_ok] at ok
  obtain ⟨new, -, fits, ok⟩ := ok
  split at ok
  · cases ok
  rename_i vs cumulative sum tail
  cases ok
  exact ⟨not_not.mp same, positive, fits, _, vs, cumulative, sum, rfl,
    by simpa using new, tail, rfl⟩

/-- What the strict loop accepts the other loop reads as the same entries. -/
theorem parseEntries_spec :
    ∀ {i w : Nat} {seen vs : List Validator} {cumulative : List Nat} {sum : Nat},
    parseEntries hash i seen w list = .ok (vs, cumulative, sum) → i + list.length ≤ total →
    loadEntries total w list = .ok (entriesFrom i w vs, sum) ∧ vs.length = list.length ∧
      sum = w + (vs.map (·.weight)).sum ∧ (∀ v ∈ vs, 0 < v.weight) ∧
      ∀ j < vs.length, cumulative.getD j 0 = w + ((vs.map (·.weight)).take j).sum := by
  induction list with
  | nil =>
    intro i w seen vs cumulative sum ok le
    cases ok
    simp [loadEntries, entriesFrom]
  | cons entry rest ih =>
    obtain ⟨index, raw⟩ := entry
    intro i w seen vs cumulative sum ok le
    obtain ⟨rfl, positive, fits, v, vs, cumulative, sum, addr, -, tail, same⟩ :=
      parseEntries_cons ok
    cases same
    have weight : v.weight = raw.weight := congrArg ValidatorAddr.weight addr
    rw [length_cons] at le
    obtain ⟨loaded, len, sum_eq, pos, cum⟩ := ih tail (by omega)
    have inside : ¬ index ≥ total := by omega
    refine ⟨?_, by simp [len], ?_, ?_, ?_⟩
    · have read : (loadValidatorAddr raw).weight = raw.weight := rfl
      unfold loadEntries
      simp only [if_neg inside, read, if_neg positive, if_neg fits, loaded]
      rw [entriesFrom, weight, addr]
    · rw [map_cons, sum_cons, weight, sum_eq]
      omega
    · intro v' mem
      cases mem with
      | head => omega
      | tail _ mem => exact pos v' mem
    · intro j lt
      cases j with
      | zero => simp
      | succ j =>
        rw [getD_cons_succ, cum j (by simpa using lt), map_cons, take_succ_cons,
          sum_cons]
        omega

theorem parseEntries_keys :
    ∀ {i w : Nat} {seen vs : List Validator} {cumulative : List Nat} {sum : Nat},
    parseEntries hash i seen w list = .ok (vs, cumulative, sum) →
    (seen.map (·.publicKey)).Nodup → ((seen ++ vs).map (·.publicKey)).Nodup := by
  induction list with
  | nil =>
    intro i w seen vs cumulative sum ok nodup
    cases ok
    rwa [append_nil]
  | cons entry rest ih =>
    intro i w seen vs cumulative sum ok nodup
    obtain ⟨-, -, -, v, vs, cumulative, sum, -, new, tail, same⟩ := parseEntries_cons ok
    cases same
    have all := ih tail (by simpa [nodup_append, nodup] using new)
    rwa [append_assoc] at all

/-- What holds of every set the tracker's parser takes. -/
structure ParsedSet (raw : RawValidatorSet) (set : ValidatorSet) : Prop where
  line : set.Line
  present : set.validators ≠ []
  since : set.since = raw.since
  loaded : loadValidatorSetParams raw = .ok set.params

theorem ValidatorSet.entries_eq (set : ValidatorSet) :
    set.entries = entriesFrom 0 0 set.validators := by
  rw [entriesFrom_eq]
  simp [ValidatorSet.entries]

theorem loadValidatorEntries_eq {vs : List Validator}
    {sum : Nat} (some_ : total ≠ 0) (count : list.length = total)
    (loaded : loadEntries total 0 list = .ok (entriesFrom 0 0 vs, sum)) :
    loadValidatorEntries list total = .ok (entriesFrom 0 0 vs, sum) := by
  have keys := keys_entriesFrom vs 0 0
  have sorted : (entriesFrom 0 0 vs).mergeSort (fun a b => a.key ≤ b.key) = entriesFrom 0 0 vs := by
    apply mergeSort_of_pairwise
    have ascending : ((entriesFrom 0 0 vs).map (·.key)).Pairwise (· < ·) := by
      rw [keys]
      exact pairwise_lt_range'
    exact (pairwise_map.mp ascending).imp fun lt => by simpa using Nat.le_of_lt lt
  have len : (entriesFrom 0 0 vs).length = vs.length := by
    simpa using congrArg List.length keys
  unfold loadValidatorEntries
  rw [if_neg some_, if_neg (not_not.mpr count), loaded]
  simp only [sorted]
  rw [if_neg]
  rw [not_not, keys, len, range_eq_range']

theorem parseValidatorSet_spec {set : ValidatorSet} (ok : parseValidatorSet hash raw = .ok set) :
    ParsedSet raw set ∧ (set.validators.map (·.publicKey)).Nodup ∧
      set.main ≤ set.validators.length := by
  unfold parseValidatorSet at ok
  rw [guard_eq_ok, guard_eq_ok, guard_eq_ok] at ok
  obtain ⟨main, declared, count, ok⟩ := ok
  split at ok
  · cases ok
  rename_i vs cumulative sum parsed
  rw [guard_eq_ok, guard_eq_ok] at ok
  obtain ⟨-, correct, ok⟩ := ok
  cases ok
  have count : raw.list.length = raw.total.toNat := not_not.mp count
  have main : raw.main ≠ 0 ∧ raw.main.toNat ≤ raw.total.toNat := by
    rw [not_or] at main
    exact ⟨main.1, UInt16.le_iff_toNat_le.mp (UInt16.not_lt.mp main.2)⟩
  have some_ : raw.total.toNat ≠ 0 := by
    have : raw.main.toNat ≠ 0 := fun zero => main.1 (UInt16.toNat_inj.mp zero)
    omega
  have small := raw.total.toNat_lt
  have fits : 0 + raw.list.length ≤ raw.total.toNat := by omega
  obtain ⟨loaded, len, sum_eq, pos, cum⟩ := parseEntries_spec parsed fits
  refine ⟨⟨⟨?_, ?_, ?_, ?_⟩, ?_, rfl, ?_⟩, parseEntries_keys parsed .nil, by simp; omega⟩
  · intro i lt
    simpa using cum i lt
  · simpa using sum_eq
  · intro w mem
    obtain ⟨v, member, rfl⟩ := mem_map.mp mem
    exact pos v member
  · change vs.length < 2 ^ 63
    omega
  · rintro rfl
    simp at len
    omega
  · have read := loadValidatorEntries_eq some_ count loaded
    unfold loadValidatorSetParams ValidatorSet.params
    rw [if_neg declared, read, ValidatorSet.entries_eq]
    simp only [main.1, if_false]
    rw [if_neg]
    cases h : raw.declaredTotalWeight with
    | none => simp
    | some w =>
      simp only [h, Option.any_some, decide_eq_true_eq, not_not] at correct ⊢
      exact correct.symm

/-- The library decodes a parameter that the tracker takes to its fields. -/
structure DecodesCatchain
    (getCatchainConfig : Option RawCatchain → Except RosterError CatchainSchema) : Prop where
  absent : ∃ e, getCatchainConfig none = .error e
  v1 : ∀ mc shard lifetime validators,
    getCatchainConfig (some (.v1 mc shard lifetime validators)) =
      .ok (.v1 mc shard lifetime validators)
  v2 : ∀ shuffle mc shard lifetime validators,
    getCatchainConfig (some (.v2 0 shuffle mc shard lifetime validators)) =
      .ok (.v2 shuffle mc shard lifetime validators)

variable {getCatchainConfig : Option RawCatchain → Except RosterError CatchainSchema}

theorem parseCatchainConfig_spec {raw : Option RawCatchain} {config : CatchainConfig}
    (decodes : DecodesCatchain getCatchainConfig) (ok : parseCatchainConfig raw = .ok config) :
    catchainValidatorOptions (resolveShardTopCatchainConfig getCatchainConfig raw) =
        (config.shuffleMasterchain, config.shardValidators) ∧ 0 < config.shardValidators := by
  have positive {c d : CatchainConfig} (ok : c.checked = .ok d) :
      c = d ∧ 0 < d.shardValidators := by
    obtain ⟨zero, ok⟩ := guard_eq_ok.mp ok
    cases ok
    simp only [not_or] at zero
    exact ⟨rfl, UInt32.pos_iff_ne_zero.mpr zero.2.2.2⟩
  unfold parseCatchainConfig at ok
  unfold resolveShardTopCatchainConfig
  split at ok
  · cases ok
    obtain ⟨e, absent⟩ := decodes.absent
    rw [absent]
    exact ⟨rfl, by decide⟩
  · cases ok
  · obtain ⟨rfl, pos⟩ := positive ok
    rw [decodes.v1]
    exact ⟨rfl, pos⟩
  · obtain ⟨flags, ok⟩ := guard_eq_ok.mp ok
    cases not_not.mp flags
    obtain ⟨rfl, pos⟩ := positive ok
    rw [decodes.v2]
    exact ⟨rfl, pos⟩

/-- From the same set and parameter both sides choose the same roster. -/
theorem validatorsForBlock_eq {rng : Prng} (below : rng.Below)
    {input : RosterInput} {catchain : Option RawCatchain}
    (decodes : DecodesCatchain getCatchainConfig)
    (ok : parseValidatorSet hash raw = .ok input.set)
    (parsed : parseCatchainConfig catchain = .ok input.catchain) :
    validatorsForBlockWithCatchainConfig rng input.workchain input.shard raw input.catchainSeqno
      (resolveShardTopCatchainConfig getCatchainConfig catchain) =
        .ok (validatorAddrs (selectRoster rng input)) := by
  have set := (parseValidatorSet_spec ok).1
  obtain ⟨options, some_⟩ := parseCatchainConfig_spec decodes parsed
  have present : input.set.params.entries ≠ [] := by
    rw [← length_pos_iff]
    change 0 < input.set.entries.length
    rw [input.set.length_entries]
    exact length_pos_iff.mpr set.present
  unfold validatorsForBlockWithCatchainConfig selectRoster
  simp only [options, set.loaded, if_neg present]
  split
  · rw [masterchainValidatorsForSet_eq]
  · exact shardValidatorsForSet_eq below set.line some_ set.present

end Agree

end Gton.Groups
