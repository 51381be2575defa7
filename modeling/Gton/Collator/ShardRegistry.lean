import Gton.Lib.Fallible
import Gton.Shard.Cover
import Mathlib.Data.List.Dedup
import Mathlib.Data.List.Sort
import Std.Data.ExtTreeMap

/-!
# The shard registry

The masterchain's `ShardHashes`: a dictionary from workchains to binary trees whose leaves are
shard descriptors. The registry parses it, applies batches of verified shard tips to it and
writes it back.

Descriptors are decoded and encoded by the TL-B library, which is a parameter here.
-/

namespace Gton.Collator

open Std (ExtTreeMap TransCmp LawfulEqCmp)
open Gton.Shard
open Gton.Lib.Bits
open Gton.Lib.Fallible

/-! ## Data -/

/-- `ton.BlockIDExt`. -/
structure BlockID where
  workchain : BitVec 32
  shard : BitVec 64
  seqno : UInt32
  rootHash : List UInt8
  fileHash : List UInt8
  deriving DecidableEq, Inhabited

/-- A loaded cell. -/
inductive Cell
  | mk (special : Bool) (bits : List Bool) (refs : List Cell)
  deriving Inhabited

namespace Cell

def special : Cell → Bool
  | mk special _ _ => special

def bits : Cell → List Bool
  | mk _ bits _ => bits

def refs : Cell → List Cell
  | mk _ _ refs => refs

/-- One more bit fits into the cell. -/
def Roomy (c : Cell) : Prop := c.bits.length < 1023 ∧ c.refs.length ≤ 4

instance (c : Cell) : Decidable c.Roomy := by
  unfold Roomy
  infer_instance

end Cell

structure CurrencyCollection where
  coins : Nat
  extraCurrencies : List (UInt32 × Nat)
  deriving DecidableEq, Inhabited

/-- `split_merge_at`. -/
inductive FutureSplitMerge
  | none
  | split (splitUtime interval : UInt32)
  | merge (mergeUtime interval : UInt32)
  deriving DecidableEq, Inhabited

structure ShardDescriptorFields where
  seqno : UInt32
  regMCSeqno : UInt32
  startLT : UInt64
  endLT : UInt64
  genUtime : UInt32
  rootHash : List UInt8
  fileHash : List UInt8
  flags : UInt8
  beforeSplit : Bool
  beforeMerge : Bool
  wantSplit : Bool
  wantMerge : Bool
  nextCCUpdated : Bool
  nextCatchainSeqno : UInt32
  nextValidatorShard : BitVec 64
  minRefMCSeqno : UInt32
  splitMerge : FutureSplitMerge
  fees : CurrencyCollection
  created : CurrencyCollection
  deriving DecidableEq, Inhabited

/-- The two constructors of `ShardDescr`. -/
inductive DescriptorTag
  | a
  | b
  deriving DecidableEq

structure ShardRegistryKey where
  workchain : BitVec 32
  shard : BitVec 64
  deriving DecidableEq, Inhabited

/-- `shardRegistryKeyLess`, as an order: by workchain, then by unsigned shard. -/
def ShardRegistryKey.cmp : ShardRegistryKey → ShardRegistryKey → Ordering :=
  compareLex (compareOn (·.workchain.toInt)) (compareOn (·.shard.toNat))

instance : TransCmp ShardRegistryKey.cmp := by
  unfold ShardRegistryKey.cmp
  infer_instance

instance : LawfulEqCmp ShardRegistryKey.cmp where
  eq_of_compare {k l} eq := by
    simp only [ShardRegistryKey.cmp, compareLex, compareOn, Ordering.then_eq_eq,
      Std.compare_eq_iff_eq, BitVec.toInt_inj, BitVec.toNat_inj] at eq
    cases k
    cases l
    simpa using eq

/-- `shardRegistryLeaf`: the block and the descriptor of a top, and what was decoded from it. -/
structure ShardRegistryLeaf where
  block : BlockID
  descriptor : Cell
  fields : ShardDescriptorFields
  deriving Inhabited

structure ShardTop where
  block : BlockID
  predecessors : List BlockID
  descriptor : Cell
  topBlockDescr : Cell
  creators : List (List UInt8)
  deriving Inhabited

abbrev LeafMap := ExtTreeMap ShardRegistryKey ShardRegistryLeaf ShardRegistryKey.cmp

structure ShardRegistry where
  leaves : LeafMap
  accepted : LeafMap

/-- A `HashmapE 32`, by its entries. -/
abbrev ShardHashes := ExtTreeMap (BitVec 32) Cell (compareOn BitVec.toNat)

instance transCmp_toNat : TransCmp (compareOn (BitVec.toNat (w := 32))) := inferInstance

instance lawfulEqCmp_toNat : LawfulEqCmp (compareOn (BitVec.toNat (w := 32))) where
  eq_of_compare {k l} eq := by
    simpa only [compareOn, Std.compare_eq_iff_eq, BitVec.toNat_inj] using eq

theorem nodup_toList_fst {K V : Type} {cmp : K → K → Ordering} [TransCmp cmp]
    (m : ExtTreeMap K V cmp) : (m.toList.map Prod.fst).Nodup := by
  rw [ExtTreeMap.map_fst_toList_eq_keys]
  exact ExtTreeMap.distinct_keys.imp fun ne same =>
    ne (by rw [same]; exact Std.ReflCmp.compare_self)

inductive ShardTransitionKind
  | linear
  | split
  | merge
  deriving DecidableEq

structure DecodedShardTop where
  leaf : ShardRegistryLeaf
  kind : ShardTransitionKind
  predecessor : List BlockID

structure ShardRegistryTransition where
  kind : ShardTransitionKind
  outputs : List ShardRegistryLeaf
  claims : List BlockID
  consumes : List ShardRegistryKey

/-- Why a registry is not parsed, changed or written. -/
inductive Fault
  | workchain (workchain : BitVec 32)
  | treeReference (workchain : BitVec 32)
  | treeNode (shard : BitVec 64)
  | treeTag (shard : BitVec 64)
  | forkShape (shard : BitVec 64)
  | split (shard : BitVec 64)
  | duplicateShard (key : ShardRegistryKey)
  | notRoundTrip
  | descriptor
  | descriptorFlags (flags : UInt8)
  | beforeSplitAndMerge
  | descriptorHashes
  | invalidShard (shard : BitVec 64)
  | blockHashes
  | descriptorBlock
  | predecessorWorkchain (workchain : BitVec 32)
  | singlePredecessor
  | mergePredecessors
  | predecessorCount (count : Nat)
  | duplicateTarget (key : ShardRegistryKey)
  | splitTips (parent : ShardRegistryKey) (count : Nat)
  | splitPair (parent : ShardRegistryKey)
  | consumedTwice (key : ShardRegistryKey)
  | predecessorAbsent (key : ShardRegistryKey)
  | predecessorStale (key : ShardRegistryKey)
  | catchainOverflow
  | nextValidatorShard (key : ShardRegistryKey) (shard : BitVec 64)
  | catchainSeqno (key : ShardRegistryKey) (got want : UInt32)
  | endLT (key : ShardRegistryKey) (got limit : UInt64)
  | markedForTopology (key : ShardRegistryKey)
  | notBeforeSplit (key : ShardRegistryKey)
  | alsoBeforeMerge (key : ShardRegistryKey)
  | outputBeforeSplit (key : ShardRegistryKey)
  | noSplitAnnouncement (key : ShardRegistryKey)
  | outsideSplitInterval (key : ShardRegistryKey)
  | notBeforeMerge (key : ShardRegistryKey)
  | alsoBeforeSplit (key : ShardRegistryKey)
  | noMergeAnnouncement (key : ShardRegistryKey)
  | outsideMergeInterval (key : ShardRegistryKey)
  | serializeDescriptor
  | outputConflict (key : ShardRegistryKey)
  | noLeaves (shard : BitVec 64)
  | storeDescriptor (shard : BitVec 64)
  | leafAndAncestor (shard : BitVec 64)
  | leafOutside (leaf shard : BitVec 64)
  | incompletePartition (shard : BitVec 64)
  | shardFees
  | intervalOverflow
  | depth (key : ShardRegistryKey)
  | sibling (key : ShardRegistryKey)
  deriving DecidableEq

/-- The TL-B and dictionary code of the cell library. -/
structure Codec where
  /-- `tlb.LoadFromCell` of a whole descriptor, either constructor. -/
  decode : Cell → Option (DescriptorTag × ShardDescriptorFields)
  /-- `tlb.ToCell`. -/
  encode : DescriptorTag → ShardDescriptorFields → Option Cell
  /-- Whether a `ShardFees` dictionary of these entries can be written. -/
  feesFit : List (ShardRegistryKey × CurrencyCollection × CurrencyCollection) → Bool
  /-- The hash of a dictionary's root, none for an empty one. -/
  rootHash : ShardHashes → Option (List UInt8)

/-- What is encoded decodes to itself, and the cell of a descriptor is an ordinary one. -/
structure Codec.RoundTrips (tlb : Codec) : Prop where
  decode_encode : ∀ {tag fields cell}, tlb.encode tag fields = some cell →
    tlb.decode cell = some (tag, fields)
  ordinary : ∀ {tag fields cell}, tlb.encode tag fields = some cell → cell.special = false

def masterchainWorkchainID : BitVec 32 := -1#32

/-- `math.MinInt32`. -/
def invalidWorkchainID : BitVec 32 := 0x80000000#32

def shardTopKey (block : BlockID) : ShardRegistryKey := ⟨block.workchain, block.shard⟩

/-! ## Descriptors -/

def parseShardDescriptorFields (tlb : Codec) (descriptor : Cell) :
    Except Fault ShardDescriptorFields := do
  require (!descriptor.special) .descriptor
  match tlb.decode descriptor with
  | none => .error .descriptor
  | some (_, fields) =>
    require (fields.flags == 0) (.descriptorFlags fields.flags)
    require (!(fields.beforeSplit && fields.beforeMerge)) .beforeSplitAndMerge
    require (fields.rootHash.length == 32 && fields.fileHash.length == 32) .descriptorHashes
    return fields

def decodeShardRegistryLeaf (tlb : Codec) (workchain : BitVec 32) (shardID : BitVec 64)
    (descriptor : Cell) : Except Fault ShardRegistryLeaf := do
  let fields ← parseShardDescriptorFields tlb descriptor
  return {
    block := {
      workchain := workchain
      shard := shardID
      seqno := fields.seqno
      rootHash := fields.rootHash
      fileHash := fields.fileHash }
    descriptor := descriptor
    fields := fields }

def storeMasterShardDescriptor (tlb : Codec) (tag : DescriptorTag)
    (fields : ShardDescriptorFields) : Except Fault Cell :=
  match tlb.encode tag fields with
  | none => .error .serializeDescriptor
  | some cell => .ok cell

def loadMasterShardDescriptorTag (tlb : Codec) (descriptor : Cell) : Except Fault DescriptorTag :=
  match tlb.decode descriptor with
  | none => .error .descriptor
  | some (tag, _) => .ok tag

/-! ## Reading the dictionary -/

/-- `shard.Child`, as its callers here use it. -/
def childOf (shardID : BitVec 64) (left : Bool) : Except Fault (BitVec 64) :=
  match child shardID left with
  | none => .error (.split shardID)
  | some c => .ok c

/-- The leaf case of `parseShardRegistryTree`. -/
def insertLeaf (leaves : LeafMap) (leaf : ShardRegistryLeaf) : Except Fault LeafMap := do
  require (!leaves.contains (shardTopKey leaf.block)) (.duplicateShard (shardTopKey leaf.block))
  return leaves.insert (shardTopKey leaf.block) leaf

def parseShardRegistryTree (tlb : Codec) (workchain : BitVec 32) :
    Cell → BitVec 64 → LeafMap → Except Fault LeafMap
  | .mk true _ _, shardID, _ => .error (.treeNode shardID)
  | .mk false [] _, shardID, _ => .error (.treeTag shardID)
  | .mk false (false :: bits) refs, shardID, leaves => do
    let leaf ← decodeShardRegistryLeaf tlb workchain shardID (.mk false bits refs)
    insertLeaf leaves leaf
  | .mk false [true] [left, right], shardID, leaves => do
    let leftID ← childOf shardID true
    let rightID ← childOf shardID false
    let leaves ← parseShardRegistryTree tlb workchain left leftID leaves
    parseShardRegistryTree tlb workchain right rightID leaves
  | .mk false (true :: _) _, shardID, _ => .error (.forkShape shardID)

/-- One entry of `parseShardRegistryLeaves`. -/
def parseWorkchain (tlb : Codec) (leaves : LeafMap) (item : BitVec 32 × Cell) :
    Except Fault LeafMap := do
  require (item.1 != masterchainWorkchainID && item.1 != invalidWorkchainID) (.workchain item.1)
  match item.2 with
  | .mk _ [] [tree] => parseShardRegistryTree tlb item.1 tree root leaves
  | _ => .error (.treeReference item.1)

def parseShardRegistryLeaves (tlb : Codec) (shardHashes : ShardHashes) : Except Fault LeafMap :=
  shardHashes.toList.foldlM (parseWorkchain tlb) ∅

/-! ## Writing the dictionary -/

/-- The leaf case of `buildWorkchainShardTree`: a tag bit and the descriptor. -/
def leafCell (shardID : BitVec 64) (descriptor : Cell) : Except Fault Cell :=
  if descriptor.Roomy then .ok (.mk false (false :: descriptor.bits) descriptor.refs)
  else .error (.storeDescriptor shardID)

def forkCell (left right : Cell) : Cell := .mk false [true] [left, right]

/-- The body of `buildWorkchainShardTree`, with the recursive call as a parameter. -/
def buildNode (recurse : BitVec 64 → List ShardRegistryLeaf → Except Fault Cell)
    (shardID : BitVec 64) (leaves : List ShardRegistryLeaf) : Except Fault Cell :=
  match leaves with
  | [] => .error (.noLeaves shardID)
  | first :: rest =>
    if rest = [] ∧ first.block.shard = shardID then leafCell shardID first.descriptor
    else if leaves.any (·.block.shard == shardID) then .error (.leafAndAncestor shardID)
    else do
      let leftID ← childOf shardID true
      let rightID ← childOf shardID false
      match leaves.find? fun leaf =>
        !contains leftID leaf.block.shard && !contains rightID leaf.block.shard with
      | some leaf => .error (.leafOutside leaf.block.shard shardID)
      | none =>
        let leftLeaves := leaves.filter fun leaf => contains leftID leaf.block.shard
        let rightLeaves := leaves.filter fun leaf => !contains leftID leaf.block.shard
        require (!leftLeaves.isEmpty && !rightLeaves.isEmpty) (.incompletePartition shardID)
        let left ← recurse leftID leftLeaves
        let right ← recurse rightID rightLeaves
        return forkCell left right

/-- `buildWorkchainShardTree`, for a shard whose mark is at bit `level`. Below a mark at bit 0
there is no child to go on with. -/
def buildTree : Nat → BitVec 64 → List ShardRegistryLeaf → Except Fault Cell
  | 0 => buildNode fun shardID _ => .error (.split shardID)
  | below + 1 => buildNode (buildTree below)

def buildWorkchainShardTree (shardID : BitVec 64) (leaves : List ShardRegistryLeaf) :
    Except Fault Cell :=
  buildTree (trailingZeros shardID) shardID leaves

def sortedShardRegistryLeaves (leaves : LeafMap) : List ShardRegistryLeaf :=
  leaves.toList.map Prod.snd

/-- The leaves of a workchain, by unsigned shard. -/
def workchainLeaves (leaves : List ShardRegistryLeaf) (workchain : BitVec 32) :
    List ShardRegistryLeaf :=
  (leaves.filter (·.block.workchain == workchain)).insertionSort fun x y =>
    x.block.shard ≤ y.block.shard

/-- The workchains of some leaves, in order. -/
def workchainsOf (leaves : List ShardRegistryLeaf) : List (BitVec 32) :=
  ((leaves.map (·.block.workchain)).dedup).insertionSort fun x y => x.toInt ≤ y.toInt

/-- One workchain of `buildShardHashesDictionary`. -/
def storeWorkchain (leaves : List ShardRegistryLeaf) (result : ShardHashes)
    (workchain : BitVec 32) : Except Fault ShardHashes := do
  let tree ← buildWorkchainShardTree root (workchainLeaves leaves workchain)
  return result.insert workchain (.mk false [] [tree])

def buildShardHashesDictionary (leaves : LeafMap) : Except Fault ShardHashes :=
  let all := sortedShardRegistryLeaves leaves
  (workchainsOf all).foldlM (storeWorkchain all) ∅

def ShardRegistry.build (r : ShardRegistry) : Except Fault ShardHashes :=
  buildShardHashesDictionary r.leaves

/-- `buildShardFeesDictionary`, as far as it can fail. -/
def buildShardFeesDictionary (tlb : Codec) (leaves : LeafMap) : Except Fault Unit :=
  require (tlb.feesFit ((sortedShardRegistryLeaves leaves).map fun leaf =>
    (shardTopKey leaf.block, leaf.fields.fees, leaf.fields.created))) .shardFees

/-! ## Tips -/

def validateShardRegistryBlock (block : BlockID) : Except Fault Unit := do
  require (block.workchain != masterchainWorkchainID && block.workchain != invalidWorkchainID)
    (.workchain block.workchain)
  require (block.shard != 0#64) (.invalidShard block.shard)
  require (block.rootHash.length == 32 && block.fileHash.length == 32) .blockHashes

/-- The checks `decodeShardTop` makes of each predecessor. -/
def validatePredecessor (block predecessor : BlockID) : Except Fault Unit := do
  validateShardRegistryBlock predecessor
  require (predecessor.workchain == block.workchain) (.predecessorWorkchain predecessor.workchain)

/-- The kind of a transition, by how many predecessors there are and where they lie; those of a
merge are put in order. -/
def transitionKind (block : BlockID) :
    List BlockID → Except Fault (ShardTransitionKind × List BlockID)
  | [single] =>
    if single.shard = block.shard then .ok (.linear, [single])
    else if isDirectChild single.shard block.shard then .ok (.split, [single])
    else .error .singlePredecessor
  | [first, second] => do
    let left ← childOf block.shard true
    let right ← childOf block.shard false
    require ((first.shard == left && second.shard == right) ||
      (first.shard == right && second.shard == left)) .mergePredecessors
    return (.merge, if first.shard > second.shard then [second, first] else [first, second])
  | predecessors => .error (.predecessorCount predecessors.length)

def decodeShardTop (tlb : Codec) (top : ShardTop) : Except Fault DecodedShardTop := do
  validateShardRegistryBlock top.block
  let leaf ← decodeShardRegistryLeaf tlb top.block.workchain top.block.shard top.descriptor
  require (leaf.block == top.block) .descriptorBlock
  top.predecessors.forM (validatePredecessor top.block)
  let (kind, predecessor) ← transitionKind top.block top.predecessors
  return ⟨leaf, kind, predecessor⟩

/-! ## Transitions -/

def DecodedShardTop.target (item : DecodedShardTop) : ShardRegistryKey :=
  shardTopKey item.leaf.block

/-- The plan while it is made: the targets met, the tips of each split parent and the transitions
of the other tips. -/
structure Plan where
  targets : List ShardRegistryKey
  splits : ExtTreeMap ShardRegistryKey (List DecodedShardTop) ShardRegistryKey.cmp
  transitions : List ShardRegistryTransition

/-- A tip that is no split makes a transition of its own. -/
def DecodedShardTop.transition (item : DecodedShardTop) : ShardRegistryTransition where
  kind := item.kind
  outputs := [item.leaf]
  claims := item.predecessor
  consumes := item.predecessor.map shardTopKey

/-- One tip of `planShardRegistryTransitions`. -/
def Plan.add (plan : Plan) (item : DecodedShardTop) : Except Fault Plan := do
  require (!plan.targets.contains item.target) (.duplicateTarget item.target)
  match item.kind, item.predecessor with
  | .split, parent :: _ =>
    return { plan with
      targets := item.target :: plan.targets
      splits := plan.splits.insert (shardTopKey parent)
        (plan.splits.getD (shardTopKey parent) [] ++ [item]) }
  | _, _ =>
    return { plan with
      targets := item.target :: plan.targets
      transitions := plan.transitions ++ [item.transition] }

/-- The transition of one split parent. -/
def pairSplit (split : ShardRegistryKey × List DecodedShardTop) :
    Except Fault ShardRegistryTransition :=
  match split.2 with
  | [first, second] => do
    let left ← childOf split.1.shard true
    let right ← childOf split.1.shard false
    require (first.leaf.block.shard == left && second.leaf.block.shard == right)
      (.splitPair split.1)
    return {
      kind := .split
      outputs := [first.leaf, second.leaf]
      claims := first.predecessor.take 1 ++ second.predecessor.take 1
      consumes := [split.1] }
  | tips => .error (.splitTips split.1 tips.length)

/-- The key a transition is ordered by. -/
def ShardRegistryTransition.firstKey (t : ShardRegistryTransition) : ShardRegistryKey :=
  (t.outputs.head?.map fun leaf => shardTopKey leaf.block).getD default

/-- The check that no predecessor is consumed twice. -/
def consumeOnce (consumed : List ShardRegistryKey) (key : ShardRegistryKey) :
    Except Fault (List ShardRegistryKey) := do
  require (!consumed.contains key) (.consumedTwice key)
  return key :: consumed

/-- `sort.Slice` by a registry key. -/
def sortByKey {α : Type} (key : α → ShardRegistryKey) (items : List α) : List α :=
  items.insertionSort fun x y => (ShardRegistryKey.cmp (key x) (key y)).isLE

def planShardRegistryTransitions (decoded : List DecodedShardTop) :
    Except Fault (List ShardRegistryTransition) := do
  let plan ← (sortByKey DecodedShardTop.target decoded).foldlM Plan.add ⟨[], ∅, []⟩
  let pairs ← plan.splits.toList.mapM pairSplit
  let transitions := sortByKey ShardRegistryTransition.firstKey (plan.transitions ++ pairs)
  let _ ← (transitions.flatMap (·.consumes)).foldlM consumeOnce []
  return transitions

/-! ## Checking a transition -/

def masterShardTimeInside (now start interval : UInt32) : Bool :=
  let stop := start.toNat + interval.toNat
  decide (stop ≤ 0xffffffff ∧ start.toNat ≤ now.toNat ∧ now.toNat < stop)

def verifyShardBeforeSplit (predecessor : ShardDescriptorFields) (output : ShardRegistryLeaf)
    (topologySplit : Bool) : Except Fault Unit :=
  if !output.fields.beforeSplit then .ok ()
  else if topologySplit then .error (.outputBeforeSplit (shardTopKey output.block))
  else
    match predecessor.splitMerge with
    | .split utime interval =>
      require (masterShardTimeInside output.fields.genUtime utime interval)
        (.outsideSplitInterval (shardTopKey output.block))
    | _ => .error (.noSplitAnnouncement (shardTopKey output.block))

def verifyShardMergeWindow (key : ShardRegistryKey) (predecessor output : ShardDescriptorFields) :
    Except Fault Unit :=
  match predecessor.splitMerge with
  | .merge utime interval =>
    require (masterShardTimeInside output.genUtime utime interval) (.outsideMergeInterval key)
  | _ => .error (.noMergeAnnouncement key)

def inheritShardRegistryFSM (tlb : Codec) (output : ShardRegistryLeaf)
    (predecessor : ShardDescriptorFields) : Except Fault ShardRegistryLeaf :=
  if predecessor.splitMerge = .none then .ok output
  else do
    let fields := { output.fields with splitMerge := predecessor.splitMerge }
    let tag ← loadMasterShardDescriptorTag tlb output.descriptor
    let descriptor ← storeMasterShardDescriptor tlb tag fields
    return { output with descriptor := descriptor, fields := fields }

section Verify

variable (tlb : Codec) (current : LeafMap) (ltLimit : UInt64)

/-- The fields registered under a key; those of an absent one are never used. -/
def registered (key : ShardRegistryKey) : ShardDescriptorFields :=
  (current[key]?.map (·.fields)).getD default

/-- A predecessor has to be the registered block of its shard. -/
def verifyClaim (claim : BlockID) : Except Fault Unit :=
  match current[shardTopKey claim]? with
  | none => .error (.predecessorAbsent (shardTopKey claim))
  | some leaf => require (leaf.block == claim) (.predecessorStale (shardTopKey claim))

/-- The catchain seqno the outputs have to carry. -/
def expectedCatchainSeqno (t : ShardRegistryTransition) : Except Fault UInt32 :=
  let seqnos := t.consumes.map fun key => (registered current key).nextCatchainSeqno
  let old := seqnos.foldl max 0
  if t.kind = .merge then
    if old = 0xffffffff then .error .catchainOverflow else .ok (old + 1)
  else .ok old

/-- The checks made of every output. -/
def verifyOutput (catchainSeqno : UInt32) (output : ShardRegistryLeaf) : Except Fault Unit := do
  require (output.fields.nextValidatorShard == output.block.shard)
    (.nextValidatorShard (shardTopKey output.block) output.fields.nextValidatorShard)
  require (output.fields.nextCatchainSeqno == catchainSeqno)
    (.catchainSeqno (shardTopKey output.block) output.fields.nextCatchainSeqno catchainSeqno)
  require (output.fields.endLT < ltLimit)
    (.endLT (shardTopKey output.block) output.fields.endLT ltLimit)

def verifyLinear (key : ShardRegistryKey) (output : ShardRegistryLeaf) :
    Except Fault ShardRegistryLeaf := do
  require (!((registered current key).beforeSplit || (registered current key).beforeMerge))
    (.markedForTopology key)
  verifyShardBeforeSplit (registered current key) output false
  inheritShardRegistryFSM tlb output (registered current key)

def verifySplitOutput (key : ShardRegistryKey) (output : ShardRegistryLeaf) :
    Except Fault Unit := do
  require (!output.fields.beforeSplit) (.outputBeforeSplit (shardTopKey output.block))
  verifyShardBeforeSplit (registered current key) output true

def verifyMergePredecessor (output : ShardRegistryLeaf) (key : ShardRegistryKey) :
    Except Fault Unit := do
  require (registered current key).beforeMerge (.notBeforeMerge key)
  require (!(registered current key).beforeSplit) (.alsoBeforeSplit key)
  verifyShardMergeWindow key (registered current key) output.fields

/-- The part of `verifyShardRegistryTransition` that depends on the kind; a linear output comes
back with the announcement it inherits. -/
def verifyKind (t : ShardRegistryTransition) : Except Fault (List ShardRegistryLeaf) :=
  match t.kind, t.consumes, t.outputs with
  | .linear, key :: _, output :: rest => do
    let output ← verifyLinear tlb current key output
    return output :: rest
  | .split, key :: _, outputs => do
    require (registered current key).beforeSplit (.notBeforeSplit key)
    require (!(registered current key).beforeMerge) (.alsoBeforeMerge key)
    outputs.forM (verifySplitOutput current key)
    return outputs
  | .merge, consumes, output :: rest => do
    consumes.forM (verifyMergePredecessor current output)
    require (!output.fields.beforeSplit) (.outputBeforeSplit (shardTopKey output.block))
    return output :: rest
  -- a transition has an output and a predecessor
  | _, _, outputs => .ok outputs

def verifyShardRegistryTransition (t : ShardRegistryTransition) :
    Except Fault ShardRegistryTransition := do
  t.claims.forM (verifyClaim current)
  let catchainSeqno ← expectedCatchainSeqno current t
  t.outputs.forM (verifyOutput ltLimit catchainSeqno)
  let outputs ← verifyKind tlb current t
  return { t with outputs := outputs }

end Verify

/-! ## Applying a batch -/

/-- An output must not meet a leaf that stays. -/
def stageOutput (state : LeafMap × LeafMap) (output : ShardRegistryLeaf) :
    Except Fault (LeafMap × LeafMap) := do
  let key := shardTopKey output.block
  require (!state.1.contains key) (.outputConflict key)
  return (state.1.insert key output, state.2.insert key output)

/-- The predecessors leave the registry, then the outputs enter it. -/
def stageTransition (state : LeafMap × LeafMap) (t : ShardRegistryTransition) :
    Except Fault (LeafMap × LeafMap) :=
  let remaining := t.consumes.foldl (fun leaves key => leaves.erase key) state.1
  t.outputs.foldlM stageOutput (remaining, state.2)

namespace ShardRegistry

/-- `ParseShardRegistry`. -/
def parse (tlb : Codec) (shardHashes : ShardHashes) : Except Fault ShardRegistry := do
  let leaves ← parseShardRegistryLeaves tlb shardHashes
  let rebuilt ← buildShardHashesDictionary leaves
  require (tlb.rootHash shardHashes == tlb.rootHash rebuilt) .notRoundTrip
  return ⟨leaves, ∅⟩

def apply (tlb : Codec) (r : ShardRegistry) (tops : List ShardTop) (ltLimit : UInt64) :
    Except Fault ShardRegistry := do
  let decoded ← tops.mapM (decodeShardTop tlb)
  let planned ← planShardRegistryTransitions decoded
  let transitions ← planned.mapM (verifyShardRegistryTransition tlb r.leaves ltLimit)
  let (staged, accepted) ← transitions.foldlM stageTransition (r.leaves, ∅)
  let _ ← buildShardHashesDictionary staged
  buildShardFeesDictionary tlb accepted
  return ⟨staged, accepted⟩

/-- `Apply` as the method it is: the fields are assigned once everything has succeeded. -/
def applyInPlace (tlb : Codec) (tops : List ShardTop) (ltLimit : UInt64) :
    ExceptT Fault (StateM ShardRegistry) Unit := do
  let r ← get
  let r' ← ExceptT.mk (pure (r.apply tlb tops ltLimit))
  set r'

end ShardRegistry

end Gton.Collator
