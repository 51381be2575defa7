import Gton.Groups.Config
import Gton.Shard.Prefix
import Mathlib.Data.List.Sort

/-!
# Masterchain states

What a masterchain state says about the shards: the registry, the shards that are active and
the ones to prepare, and the catchain seqno of each.
-/

namespace Gton.Groups

open Gton.Shard
open Gton.Lib.Fallible

abbrev ShardID := ShardIdent

/-- `ton.BlockIDExt`. -/
structure BlockID where
  workchain : BitVec 32
  shard : BitVec 64
  seqno : UInt32
  rootHash : Hash
  fileHash : Hash
  deriving DecidableEq, Inhabited

def masterchainWorkchain : BitVec 32 := -1#32
def basechainWorkchain : BitVec 32 := 0#32

/-- `math.MinInt32`. -/
def invalidWorkchain : BitVec 32 := 0x80000000#32

def maxShardDepth : Nat := 60

def masterchainShardID : ShardID := ⟨masterchainWorkchain, root⟩

inductive ShardFSMKind
  | none | split | merge
  deriving DecidableEq

structure ShardFSM where
  kind : ShardFSMKind
  utime : UInt32
  interval : UInt32
  deriving DecidableEq

/-- A `shard_descr` of the registry. -/
structure RawShardDescr where
  seqno : UInt32
  rootHash : Hash
  fileHash : Hash
  beforeSplit : Bool
  beforeMerge : Bool
  flags : Nat
  nextCatchainSeqno : UInt32
  splitMergeAt : ShardFSM
  deriving DecidableEq

inductive BinTree (α : Type)
  | leaf (value : α)
  | fork (left right : BinTree α)
  deriving DecidableEq

/-- The library's `tlb.ShardID`, and the leaves `Walk` visits with their paths. -/
structure ShardLib where
  getChild : BitVec 64 → Bool → BitVec 64
  getParent : BitVec 64 → BitVec 64
  isAncestor : BitVec 64 → BitVec 64 → Bool
  walk : BinTree RawShardDescr → List (List Bool × RawShardDescr)

/-- A masterchain state as it is decoded from its cells. -/
structure RawState where
  workchainID : BitVec 32
  prefixBits : Nat
  shardPrefix : BitVec 64
  seqno : UInt32
  genUTime : UInt32
  catchainSeqno : UInt32
  nextCCUpdated : Bool
  afterKeyBlock : Bool
  lastKeyBlock : Option UInt32
  config : RawConfig
  shardHashes : List (BitVec 32 × BinTree RawShardDescr)
  deriving DecidableEq

structure ShardDescription where
  shard : ShardID
  block : BlockID
  nextCatchainSeqno : UInt32
  beforeSplit : Bool
  beforeMerge : Bool
  fsm : ShardFSM
  deriving DecidableEq

structure StateInput where
  block : BlockID
  root : RawState

structure State where
  block : BlockID
  genUTime : UInt32
  catchainSeqno : UInt32
  rotatedAllShards : Bool
  isKeyState : Bool
  lastKeyBlockSeqno : UInt32
  configRoot : RawConfig
  shards : List ShardDescription
  deriving DecidableEq

structure Target where
  shard : ShardID
  genesis : List BlockID
  registered : List ShardDescription
  deriving DecidableEq

/-- Why a state, a topology or a seqno is not derived. -/
inductive StateError
  | blockID
  | prefixLength
  | workchain
  | prefixNotCanonical
  | notMasterchain
  | seqno
  | lastKeyBlock
  | shardHashesAbsent
  | pathDepth
  | duplicateShard
  | flags
  | splitAndMerge
  | invalidShard
  | maximumDepth
  | noParent
  | duplicateTarget
  | incompleteSiblings
  | mismatchedSiblings
  | notFound
  | overflow
  | time
  deriving DecidableEq

/-! ## Shard arithmetic -/

namespace ShardID

def isMasterchain (s : ShardID) : Bool := s.workchain == masterchainWorkchain && s.shard == root

def isValid (s : ShardID) : Bool :=
  s.workchain != invalidWorkchain && s.shard != 0#64 && prefixLength s.shard ≤ maxShardDepth &&
    !(s.workchain == masterchainWorkchain && !isMasterchain s)

end ShardID

variable (lib : ShardLib)

def shardChildren (parent : ShardID) : Except StateError (ShardID × ShardID) :=
  if !ShardID.isValid parent || ShardID.isMasterchain parent then .error .invalidShard
  else if prefixLength parent.shard ≥ maxShardDepth then .error .maximumDepth
  else .ok (⟨parent.workchain, lib.getChild parent.shard true⟩,
    ⟨parent.workchain, lib.getChild parent.shard false⟩)

def shardParent (child : ShardID) : Except StateError ShardID :=
  if !ShardID.isValid child || ShardID.isMasterchain child then .error .invalidShard
  else if child.shard = root then .error .noParent
  else .ok ⟨child.workchain, lib.getParent child.shard⟩

def shardLess (left right : ShardID) : Bool :=
  if left.workchain ≠ right.workchain then left.workchain.toInt < right.workchain.toInt
  else left.shard < right.shard

/-- `sort.Slice` by shard. -/
def sortByShard {α : Type} (key : α → ShardID) (xs : List α) : List α :=
  xs.insertionSort fun a b => !shardLess (key b) (key a)

/-! ## Parsing -/

/-- `validateMasterchainBlockID`; both hashes have 32 bytes. -/
def validateMasterchainBlockID (block : BlockID) : Except StateError Unit :=
  require (block.workchain == masterchainWorkchain && block.shard == root) .blockID

def validShardIdentPrefix (prefixBits : Nat) (shardPrefix : BitVec 64) : Bool :=
  if prefixBits = 0 then shardPrefix == 0#64
  else shardPrefix &&& (1#64 <<< (64 - prefixBits) - 1#64) == 0#64

def validateMasterchainStateHeader (state : RawState) (block : BlockID) :
    Except StateError Unit := do
  require (state.prefixBits ≤ maxShardDepth) .prefixLength
  require (state.workchainID != invalidWorkchain) .workchain
  require (validShardIdentPrefix state.prefixBits state.shardPrefix) .prefixNotCanonical
  require (state.prefixBits == 0 && state.workchainID == masterchainWorkchain &&
    state.shardPrefix == 0#64) .notMasterchain
  require (state.seqno == block.seqno) .seqno

def lastKeyBlockSeqno (state : RawState) (currentSeqno : UInt32) : Except StateError UInt32 :=
  if state.lastKeyBlock.any (· > currentSeqno) then .error .lastKeyBlock
  else if state.afterKeyBlock then .ok currentSeqno
  else .ok (state.lastKeyBlock.getD 0)

def shardFromTreePath (workchain : BitVec 32) (path : List Bool) : Except StateError ShardID :=
  if path.length > maxShardDepth then .error .pathDepth
  else .ok ⟨workchain, path.foldl (fun shard bit => lib.getChild shard (!bit)) root⟩

def parseShardDescription (shard : ShardID) (raw : RawShardDescr) :
    Except StateError ShardDescription :=
  if raw.flags ≠ 0 then .error .flags
  else if raw.beforeSplit && raw.beforeMerge then .error .splitAndMerge
  else .ok
    { shard
      block := ⟨shard.workchain, shard.shard, raw.seqno, raw.rootHash, raw.fileHash⟩
      nextCatchainSeqno := raw.nextCatchainSeqno
      beforeSplit := raw.beforeSplit
      beforeMerge := raw.beforeMerge
      fsm := raw.splitMergeAt }

/-- One leaf of the walk. -/
def addDescription (workchain : BitVec 32) (descriptions : List ShardDescription)
    (leaf : List Bool × RawShardDescr) : Except StateError (List ShardDescription) := do
  let shard ← shardFromTreePath lib workchain leaf.1
  require (!descriptions.any (·.shard == shard)) .duplicateShard
  let description ← parseShardDescription shard leaf.2
  return descriptions ++ [description]

/-- One workchain of the registry. -/
def addWorkchain (descriptions : List ShardDescription)
    (workchain : BitVec 32 × BinTree RawShardDescr) :
    Except StateError (List ShardDescription) := do
  require (workchain.1 != masterchainWorkchain && workchain.1 != invalidWorkchain) .workchain
  (lib.walk workchain.2).foldlM (addDescription lib workchain.1) descriptions

def parseShardDescriptions (shardHashes : List (BitVec 32 × BinTree RawShardDescr))
    (masterchainSeqno : UInt32) : Except StateError (List ShardDescription) :=
  if shardHashes = [] then
    if masterchainSeqno = 0 then .ok [] else .error .shardHashesAbsent
  else sortByShard (·.shard) <$> shardHashes.foldlM (addWorkchain lib) []

def parseState (input : StateInput) : Except StateError State := do
  validateMasterchainBlockID input.block
  validateMasterchainStateHeader input.root input.block
  let lastKeySeqno ← lastKeyBlockSeqno input.root input.block.seqno
  let shards ← parseShardDescriptions lib input.root.shardHashes input.block.seqno
  return {
    block := input.block
    genUTime := input.root.genUTime
    catchainSeqno := input.root.catchainSeqno
    rotatedAllShards := input.root.nextCCUpdated
    isKeyState := input.root.afterKeyBlock
    lastKeyBlockSeqno := lastKeySeqno
    configRoot := input.root.config
    shards }

/-! ## Topology -/

namespace State

/-- The registered descriptor of a shard, by `shardIndex`. -/
def lookup (s : State) (shard : ShardID) : Option ShardDescription :=
  s.shards.find? (·.shard == shard)

def appendTarget (targets : List Target) (target : Target) : Except StateError (List Target) :=
  if targets.any (·.shard == target.shard) then .error .duplicateTarget
  else .ok (targets ++ [target])

/-- One descriptor in `CurrentTargets`: the targets so far and the parents already merged. -/
def addTarget (s : State) (acc : List Target × List ShardID) (description : ShardDescription) :
    Except StateError (List Target × List ShardID) :=
  if description.shard.workchain ≠ basechainWorkchain then .ok acc
  else if description.beforeSplit then do
    let (left, right) ← shardChildren lib description.shard
    let targets ← appendTarget acc.1 ⟨left, [description.block], [description]⟩
    let targets ← appendTarget targets ⟨right, [description.block], [description]⟩
    return (targets, acc.2)
  else if description.beforeMerge then do
    let parent ← shardParent lib description.shard
    if acc.2.contains parent then return acc
    else
      let (left, right) ← shardChildren lib parent
      match s.lookup left, s.lookup right with
      | some leftDescription, some rightDescription =>
        if !leftDescription.beforeMerge || !rightDescription.beforeMerge then
          .error .mismatchedSiblings
        else do
          let targets ← appendTarget acc.1
            ⟨parent, [leftDescription.block, rightDescription.block],
              [leftDescription, rightDescription]⟩
          return (targets, acc.2 ++ [parent])
      | _, _ => .error .incompleteSiblings
  else do
    let targets ← appendTarget acc.1
      ⟨description.shard, [description.block], [description]⟩
    return (targets, acc.2)

def currentTargets (s : State) : Except StateError (List Target) :=
  let masterchain : Target := ⟨masterchainShardID, [s.block], []⟩
  if s.block.seqno = 0 then .ok [masterchain]
  else do
    let (targets, _) ← s.shards.foldlM (s.addTarget lib) ([], [])
    return masterchain :: sortByShard (·.shard) targets

/-- `time.Time{}`, in nanoseconds from the Unix epoch. -/
def zeroTime : Int := -62135596800000000000

/-- Whole seconds. -/
def unix (t : Int) : Int := t / 1000000000

/-- `futureDeadline`; times and the horizon are in nanoseconds. -/
def futureDeadline (asOf horizon : Int) : Except StateError Int :=
  if asOf = zeroTime then .error .time
  else if horizon < 0 then .error .time
  else
    let deadline := asOf + horizon
    if unix asOf < 0 ∨ unix asOf > 4294967295 ∨ unix deadline < 0 ∨ unix deadline > 4294967295 then
      .error .time
    else if deadline < asOf then .error .time
    else .ok deadline

def shardFSMDue (fsm : ShardFSM) (deadline : Int) : Bool :=
  (fsm.utime.toNat : Int) * 1000000000 < deadline

def appendShard (shards : List ShardID) (shard : ShardID) : Except StateError (List ShardID) :=
  if shards.contains shard then .error .duplicateTarget else .ok (shards ++ [shard])

/-- One descriptor in `FutureShards`. -/
def addFutureShard (s : State) (deadline : Int) (acc : List ShardID × List ShardID)
    (description : ShardDescription) : Except StateError (List ShardID × List ShardID) :=
  if description.shard.workchain ≠ basechainWorkchain then .ok acc
  else
    let due := shardFSMDue description.fsm deadline
    if description.fsm.kind = .split && due then do
      let (left, right) ← shardChildren lib description.shard
      let shards ← appendShard acc.1 left
      let shards ← appendShard shards right
      return (shards, acc.2)
    else if description.fsm.kind = .merge && due then do
      let parent ← shardParent lib description.shard
      if acc.2.contains parent then return acc
      else
        let (left, right) ← shardChildren lib parent
        let dueMerge (shard : ShardID) : Bool :=
          (s.lookup shard).any fun d => d.fsm.kind = .merge && shardFSMDue d.fsm deadline
        if !dueMerge left || !dueMerge right then .error .incompleteSiblings
        else do
          let shards ← appendShard acc.1 parent
          return (shards, acc.2 ++ [parent])
    else do
      let shards ← appendShard acc.1 description.shard
      return (shards, acc.2)

def futureShards (s : State) (asOf horizon : Int) : Except StateError (List ShardID) := do
  let deadline ← futureDeadline asOf horizon
  if s.block.seqno = 0 then return [masterchainShardID]
  else
    let (shards, _) ← s.shards.foldlM (s.addFutureShard lib deadline) ([masterchainShardID], [])
    return sortByShard id shards

/-- The climb of `CatchainSeqnoFor` from a shard to the workchain root. -/
def climb (s : State) (workchain : BitVec 32) : Nat → BitVec 64 → Option ShardDescription
  | 0, _ => none
  | levels + 1, candidate =>
    match s.lookup ⟨workchain, candidate⟩ with
    | some description => some description
    | none => if candidate = root then none else s.climb workchain levels (lib.getParent candidate)

/-- `CatchainSeqnoFor`; `GetParent` reaches the root from a prefix in at most 63 steps. -/
def catchainSeqnoFor (s : State) (shard : ShardID) : Except StateError UInt32 :=
  if !ShardID.isValid shard then .error .invalidShard
  else if ShardID.isMasterchain shard then .ok s.catchainSeqno
  else
    match s.climb lib shard.workchain 64 shard.shard with
    | some description => .ok description.nextCatchainSeqno
    | none =>
      match shardChildren lib shard with
      | .error _ => .error .notFound
      | .ok (left, right) =>
        match s.lookup left, s.lookup right with
        | some l, some r =>
          let catchainSeqno := max l.nextCatchainSeqno r.nextCatchainSeqno
          if catchainSeqno = 0xffffffff then .error .overflow else .ok (catchainSeqno + 1)
        | none, none => .error .notFound
        | _, _ => .error .incompleteSiblings

end State

end Gton.Groups
