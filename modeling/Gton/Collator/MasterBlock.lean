import Gton.Collator.ShardPartition

/-!
# The shards of masterchain blocks

A masterchain block reads the registry its predecessor wrote, prepares the tips it was offered,
applies them, enters workchains, moves the announcements on and writes the registry again.

What a tip's `TopBlockDescr` proves is read by the cell library, which is a parameter.
-/

namespace Gton.Collator

open Gton.Shard
open Gton.Lib.Fallible

/-! ## Tips before they are applied -/

/-- `masterTopBlockDescrEnvelope`, without the signatures. -/
structure MasterTopBlockDescrEnvelope where
  target : BlockID
  length : Nat
  chain : Cell

/-- `masterTopChainLink`: what the proof of a block shows of it. -/
structure MasterTopChainLink where
  rootHash : List UInt8
  workchain : BitVec 32
  shard : BitVec 64
  seqno : UInt32
  startLT : UInt64
  endLT : UInt64
  genUtime : UInt32
  minRefMCSeqno : UInt32
  genCatchainSeqno : UInt32
  beforeSplit : Bool
  wantSplit : Bool
  wantMerge : Bool
  feesCollected : CurrencyCollection
  created : CurrencyCollection

/-- The code of the cell library that reads proofs. -/
structure TopReader where
  /-- `parseMasterTopBlockDescrEnvelope`. -/
  envelope : Cell → Option MasterTopBlockDescrEnvelope
  isMerkleProof : Cell → Bool
  /-- `parseMasterTopChainLink`. -/
  link : Cell → Option MasterTopChainLink
  hashKey : Cell → List UInt8
  /-- `CurrencyCollection.Add`. -/
  add : CurrencyCollection → CurrencyCollection → Option CurrencyCollection

/-- Why a tip is not prepared. -/
inductive TopFault
  | descriptor (fault : Fault)
  | emptyInterval
  | newer
  | notOlder
  | chainLength
  | creators (got : Nat) (want : UInt32)
  | specialTopBlockDescr
  | envelope
  | target
  | shortChain (length : Nat) (want : UInt32)
  | proofLink
  | duplicate (hash : List UInt8)
  | noBlock
  | provenRoot
  | provenShard
  | seqno
  | interval
  | genUtime
  | minRefMCSeqno
  | catchainSeqno
  | nextValidatorShard
  | beforeSplit
  | intent
  | currencies
  | fees
  | created
  | serialize (fault : Fault)
  deriving DecidableEq

def maxShardTopChainLength : UInt32 := 8

/-- The loop of `validateMasterTopProofChain`: the last link has one reference, the others two. -/
def validateMasterTopProofChain (reader : TopReader) : Nat → Cell → Except TopFault (List Cell)
  | 0, _ => .ok []
  | 1, .mk _ [] [proof] => do
    require (reader.isMerkleProof proof) .proofLink
    return [proof]
  | n + 2, .mk _ [] [proof, next] => do
    require (reader.isMerkleProof proof) .proofLink
    let rest ← validateMasterTopProofChain reader (n + 1) next
    return proof :: rest
  | _, _ => .error .proofLink

def validateMasterTopBlockDescrBinding (reader : TopReader) (root : Cell) (block : BlockID)
    (chainLength : UInt32) : Except TopFault (List Cell) :=
  match reader.envelope root with
  | none => .error .envelope
  | some envelope => do
    require (envelope.target == block) .target
    require (chainLength != 0 && decide (chainLength.toNat ≤ envelope.length))
      (.shortChain envelope.length chainLength)
    let proofs ← validateMasterTopProofChain reader envelope.length envelope.chain
    return proofs.take chainLength.toNat

/-- A sum along the chain. -/
def sumCurrencies (reader : TopReader) (amounts : List CurrencyCollection) :
    Except TopFault CurrencyCollection :=
  amounts.foldlM (fun sum amount =>
    match reader.add sum amount with
    | none => .error .currencies
    | some sum => .ok sum) ⟨0, []⟩

def verifyMasterTopBlockDescrFields (reader : TopReader) (proofs : List Cell) (block : BlockID)
    (fields : ShardDescriptorFields) : Except TopFault Unit := do
  let links ← proofs.mapM fun proof =>
    match reader.link proof with
    | none => .error .proofLink
    | some link => .ok link
  match links with
  | [] => .error .noBlock
  | top :: _ =>
    require (top.rootHash == block.rootHash) .provenRoot
    require (top.workchain == block.workchain && top.shard == block.shard) .provenShard
    require (fields.seqno == top.seqno) .seqno
    require (fields.startLT == top.startLT && fields.endLT == top.endLT) .interval
    require (fields.genUtime == top.genUtime) .genUtime
    require (fields.minRefMCSeqno == top.minRefMCSeqno) .minRefMCSeqno
    require (fields.nextCatchainSeqno == top.genCatchainSeqno) .catchainSeqno
    require (fields.nextValidatorShard == block.shard) .nextValidatorShard
    require (fields.beforeSplit == top.beforeSplit) .beforeSplit
    require (fields.wantSplit == top.wantSplit && fields.wantMerge == top.wantMerge) .intent
    let fees ← sumCurrencies reader (links.map (·.feesCollected))
    let created ← sumCurrencies reader (links.map (·.created))
    require (fields.fees == fees) .fees
    require (fields.created == created) .created

def capCreateStats : UInt64 := 2

/-- What `prepareMasterShardTops` and the activation read of a `MasterRequest`. -/
structure MasterRequest where
  shardTops : List ShardTop
  genUtime : UInt32
  globalVersion : UInt32
  capabilities : UInt64
  workchains : WorkchainMap

/-- The descriptor a tip is registered with: the masterchain decides on merges and announcements
itself. -/
def registeredFields (fields : ShardDescriptorFields) (newMCSeqno : UInt32) :
    ShardDescriptorFields :=
  { fields with
    regMCSeqno := newMCSeqno
    nextCCUpdated := false
    beforeMerge := false
    splitMerge := .none }

/-- The tips prepared so far. -/
structure PreparedTops where
  tops : List ShardTop
  maxEndLT : UInt64
  seenDescriptors : List (List UInt8)

section Prepare

variable (tlb : Codec) (reader : TopReader) (request : MasterRequest) (newMCSeqno : UInt32)
  (allowSameGenUtime : Bool)

/-- One tip of `prepareMasterShardTopsWithTimePolicy`. -/
def prepareMasterShardTop (state : PreparedTops) (top : ShardTop) :
    Except TopFault PreparedTops := do
  let fields ← (parseShardDescriptorFields tlb top.descriptor).mapError .descriptor
  require (fields.startLT < fields.endLT) .emptyInterval
  require (fields.genUtime ≤ request.genUtime) .newer
  require (allowSameGenUtime || fields.genUtime != request.genUtime) .notOlder
  let predecessorSeqno := (top.predecessors.map (·.seqno)).foldl max 0
  let chainLength := top.block.seqno - predecessorSeqno
  require (predecessorSeqno < top.block.seqno && chainLength ≤ maxShardTopChainLength) .chainLength
  require (request.capabilities &&& capCreateStats == 0 ||
    UInt32.ofNat top.creators.length == chainLength) (.creators top.creators.length chainLength)
  require (!top.topBlockDescr.special) .specialTopBlockDescr
  let links ← validateMasterTopBlockDescrBinding reader top.topBlockDescr top.block chainLength
  let descriptorHash := reader.hashKey top.topBlockDescr
  require (!state.seenDescriptors.contains descriptorHash) (.duplicate descriptorHash)
  verifyMasterTopBlockDescrFields reader links top.block fields
  let descriptor ←
    (storeMasterShardDescriptor tlb .a (registeredFields fields newMCSeqno)).mapError .serialize
  return {
    tops := state.tops ++ [{ top with descriptor := descriptor }]
    maxEndLT := max state.maxEndLT fields.endLT
    seenDescriptors := descriptorHash :: state.seenDescriptors }

def prepareMasterShardTopsWithTimePolicy : Except (Nat × TopFault) (List ShardTop × UInt64) := do
  let state ← request.shardTops.zipIdx.foldlM (fun state item =>
    (prepareMasterShardTop tlb reader request newMCSeqno allowSameGenUtime state item.1).mapError
      fun fault => (item.2, fault)) ⟨[], 0, []⟩
  return (state.tops, state.maxEndLT)

def prepareMasterShardTops : Except (Nat × TopFault) (List ShardTop × UInt64) :=
  prepareMasterShardTopsWithTimePolicy tlb reader request newMCSeqno
    (decide (13 ≤ request.globalVersion))

end Prepare

/-! ## Blocks -/

/-- Why a masterchain block does not get its shards. -/
inductive MasterFault
  | top (i : Nat) (fault : TopFault)
  | shardGrowth
  | startOverflow
  | startSigned
  | startGrowth
  | startGap
  | registry (fault : Fault)
  deriving DecidableEq

def logicalTimeAlignment : UInt64 := 1000000

def masterMaxLTGrowth : UInt64 := 10 * logicalTimeAlignment - 1

def masterMaxLTGap : UInt64 := 4 * logicalTimeAlignment

def nextBlockStartLT (previousLT masterchainLT : UInt64) : Except MasterFault UInt64 := do
  let startLT := max previousLT masterchainLT
  let increment := logicalTimeAlignment - startLT % logicalTimeAlignment
  require (startLT ≤ 0xffffffffffffffff - increment) .startOverflow
  require (startLT + increment ≤ 0x7fffffffffffffff) .startSigned
  return startLT + increment

def nextMasterBlockStartLT (previousLT shardsMaxEndLT : UInt64) : Except MasterFault UInt64 := do
  require (shardsMaxEndLT ≤ previousLT || shardsMaxEndLT - previousLT ≤ masterMaxLTGrowth)
    .shardGrowth
  let startLT ← nextBlockStartLT previousLT shardsMaxEndLT
  require (startLT - previousLT ≤ masterMaxLTGrowth) .startGrowth
  require (startLT - max previousLT shardsMaxEndLT ≤ masterMaxLTGap) .startGap
  return startLT

/-- What the shards of one masterchain block are made from. -/
structure MasterBlockInput where
  request : MasterRequest
  seqno : UInt32
  previousLT : UInt64
  nextWorkchains : WorkchainMap
  updateCatchain : Bool

/-- The registry of a block just before its announcements are moved on, the registry after that
and the dictionary the block carries. -/
structure MasterPass where
  input : MasterBlockInput
  before : ShardRegistry
  after : ShardRegistry
  shardHashes : ShardHashes

section Blocks

variable (tlb : Codec) (reader : TopReader)

/-- The shards of one block, from `prepareMaster` to `buildMasterStateAndBlockParts`. -/
def collateMasterShards (shardHashes : ShardHashes) (input : MasterBlockInput) :
    Except MasterFault MasterPass := do
  let parsed ← (ShardRegistry.parse tlb shardHashes).mapError .registry
  let (tops, shardsMaxEndLT) ← (prepareMasterShardTops tlb reader input.request
    input.seqno).mapError fun fault => .top fault.1 fault.2
  let startLT ← nextMasterBlockStartLT input.previousLT shardsMaxEndLT
  let applied ← (parsed.apply tlb tops startLT).mapError .registry
  let before ← (activateMasterShardWorkchains tlb applied input.request.workchains
    input.request.genUtime input.seqno).mapError .registry
  let after ← (postprocessMasterShardRegistry tlb before input.nextWorkchains
    input.request.genUtime input.updateCatchain).mapError .registry
  let written ← after.build.mapError .registry
  return ⟨input, before, after, written⟩

/-- Block after block, each on the dictionary of the one before. -/
def collateMasterBlocks :
    ShardHashes → List MasterBlockInput → Except MasterFault (List MasterPass)
  | _, [] => .ok []
  | shardHashes, input :: inputs => do
    let pass ← collateMasterShards tlb reader shardHashes input
    let passes ← collateMasterBlocks pass.shardHashes inputs
    return pass :: passes

end Blocks

/-! ## What a block does -/

section Spec

variable {tlb : Codec} {reader : TopReader} {request : MasterRequest} {newMCSeqno : UInt32}
  {tops : List ShardTop} {shardHashes : ShardHashes} {pass : MasterPass}

/-- A tip as the masterchain registers it: it announces nothing of its own. -/
def ShardTop.Neutral (tlb : Codec) (top : ShardTop) : Prop :=
  ∃ fields newMCSeqno,
    tlb.encode .a (registeredFields fields newMCSeqno) = some top.descriptor

theorem prepareMasterShardTop_neutral
    {allowSameGenUtime : Bool} {state state' : PreparedTops} {top : ShardTop}
    (before : ∀ t ∈ state.tops, t.Neutral tlb)
    (ok : prepareMasterShardTop tlb reader request newMCSeqno allowSameGenUtime state top =
      .ok state') : ∀ t ∈ state'.tops, t.Neutral tlb := by
  unfold prepareMasterShardTop at ok
  simp only [bind_eq_ok, mapError_eq_ok, storeMasterShardDescriptor_eq_ok] at ok
  obtain ⟨fields, -, _, -, _, -, _, -, _, -, _, -, _, -, _, -, _, -, _, -, cell, stored, same⟩ := ok
  cases same
  intro t mem
  rcases List.mem_append.mp mem with old | new
  · exact before t old
  · rw [List.mem_singleton.mp new]
    exact ⟨fields, newMCSeqno, stored⟩

theorem prepareMasterShardTops_neutral {maxEndLT : UInt64}
    (ok : prepareMasterShardTops tlb reader request newMCSeqno = .ok (tops, maxEndLT)) :
    ∀ top ∈ tops, top.Neutral tlb := by
  obtain ⟨state, prepared, same⟩ := bind_eq_ok.mp ok
  cases same
  refine foldlM_keeps (P := fun state : PreparedTops => ∀ top ∈ state.tops, top.Neutral tlb) ?_
    (by simp) prepared
  intro before item after _ h step
  exact prepareMasterShardTop_neutral h (mapError_eq_ok.mp step)

/-- How the shards of a block come about. -/
structure Collated (tlb : Codec) (shardHashes : ShardHashes) (pass : MasterPass)
    (parsed applied : ShardRegistry) (tops : List ShardTop) (startLT : UInt64) : Prop where
  read : ShardRegistry.parse tlb shardHashes = .ok parsed
  neutral : ∀ top ∈ tops, top.Neutral tlb
  applies : parsed.apply tlb tops startLT = .ok applied
  activates : activateMasterShardWorkchains tlb applied pass.input.request.workchains
    pass.input.request.genUtime pass.input.seqno = .ok pass.before
  moves : postprocessMasterShardRegistry tlb pass.before pass.input.nextWorkchains
    pass.input.request.genUtime pass.input.updateCatchain = .ok pass.after
  written : pass.after.build = .ok pass.shardHashes

theorem collateMasterShards_spec {input : MasterBlockInput}
    (ok : collateMasterShards tlb reader shardHashes input = .ok pass) :
    ∃ parsed applied tops startLT,
      Collated tlb shardHashes pass parsed applied tops startLT := by
  unfold collateMasterShards at ok
  simp only [bind_eq_ok, mapError_eq_ok] at ok
  obtain ⟨parsed, read, ⟨tops, maxEndLT⟩, prepared, startLT, -, applied, applies, before, activates,
    after, moves, written, built, same⟩ := ok
  cases same
  exact ⟨parsed, applied, tops, startLT, read, prepareMasterShardTops_neutral prepared, applies,
    activates, moves, built⟩

theorem Collated.reachable {parsed applied : ShardRegistry} {startLT : UInt64}
    (h : Collated tlb shardHashes pass parsed applied tops startLT) : Reachable tlb pass.after :=
  .postprocess (.activate (.apply (.parse h.read) h.applies) h.activates) h.moves

theorem routable_of_parse {leaves parsed : LeafMap}
    (keyed : Everywhere (fun key leaf => shardTopKey leaf.block = key) leaves)
    (built : buildShardHashesDictionary leaves = .ok shardHashes)
    (ok : parseShardRegistryLeaves tlb shardHashes = .ok parsed) : Routable leaves := by
  intro k leaf found
  have here : leaf.block.workchain = k.workchain := by
    rw [← keyed found]
    rfl
  rcases buildShardHashesDictionary_spec built k.workchain with ⟨tree, -, stored⟩ | ⟨apart, -⟩
  · obtain ⟨before, after, step⟩ := foldlM_step ok
      (Std.ExtTreeMap.mem_toList_iff_getElem?_eq_some.mpr stored)
    obtain ⟨_, allowed, -⟩ := bind_eq_ok.mp step
    simpa using allowed
  · exact absurd here (apart leaf (mem_sortedShardRegistryLeaves.mpr ⟨k, found⟩))

theorem read_back (codec : tlb.RoundTrips) {r r' : ShardRegistry}
    (reached : Reachable tlb r) (written : r.build = .ok shardHashes)
    (read : ShardRegistry.parse tlb shardHashes = .ok r') : r'.leaves = r.leaves := by
  unfold ShardRegistry.parse at read
  simp only [bind_eq_ok] at read
  obtain ⟨leaves, parsed, _, -, _, -, same⟩ := read
  cases same
  have routable : Routable r.leaves :=
    routable_of_parse reached.keyed written parsed
  have again : parseShardRegistryLeaves tlb shardHashes = .ok r.leaves :=
    parse_build (reached.everywhere (leafProperty_decoded codec)) routable written
  rw [parsed] at again
  cases again
  rfl

/-- A property of registries holds in every block of a run if it holds of the first registry that
is read and each block hands it on. -/
theorem collateMasterBlocks_induct (codec : tlb.RoundTrips) {I : LeafMap → Prop}
    {P Q : MasterPass → Prop}
    (step : ∀ {shardHashes pass parsed applied tops startLT}, I parsed.leaves → Q pass →
      Collated tlb shardHashes pass parsed applied tops startLT → P pass ∧ I pass.after.leaves)
    {inputs : List MasterBlockInput} {passes : List MasterPass}
    (start : ∀ {r}, ShardRegistry.parse tlb shardHashes = .ok r → I r.leaves)
    (run : collateMasterBlocks tlb reader shardHashes inputs = .ok passes)
    (allowed : ∀ pass ∈ passes, Q pass) : ∀ pass ∈ passes, P pass := by
  induction inputs generalizing shardHashes passes with
  | nil =>
    cases run
    simp
  | cons input inputs ih =>
    simp only [collateMasterBlocks, bind_eq_ok] at run
    obtain ⟨first, collated, rest, later, same⟩ := run
    cases same
    obtain ⟨parsed, applied, tops, startLT, spec⟩ := collateMasterShards_spec collated
    obtain ⟨here, next⟩ := step (start spec.read) (allowed first List.mem_cons_self) spec
    have goOn : ∀ {r}, ShardRegistry.parse tlb first.shardHashes = .ok r → I r.leaves := by
      intro r read
      rw [read_back codec spec.reachable spec.written read]
      exact next
    intro pass mem
    rcases List.mem_cons.mp mem with rfl | tail
    · exact here
    · exact ih goOn later (fun pass mem => allowed pass (List.mem_cons_of_mem _ mem)) pass tail

end Spec

end Gton.Collator
