import Gton.Groups.State

/-!
# The group tracker

`Tracker` turns every applied masterchain state into a snapshot of the validator sessions: the
active ones and the tentative ones. A session that goes on keeps its origin; rosters, session
ids and set hashes of active sessions are reused while what they are computed from stays.
Delegated collators and the retained history of snapshots, which no session depends on, are left
out.
-/

namespace Gton.Groups

open Gton.Shard
open Gton.Lib.Fallible

structure Member where
  publicKeyHash : Hash
  adnl : Hash
  weight : Nat
  deriving DecidableEq

/-- `GroupNewTL`, what a session id is the hash of. -/
structure GroupNew where
  workchain : BitVec 32
  shard : BitVec 64
  verticalSeqno : UInt32
  lastKeyBlockSeqno : UInt32
  catchainSeqno : UInt32
  configHash : Hash
  members : List Member
  deriving DecidableEq

/-- The library, the random generator and the hashes: SHA-256 of a boxed key and of a boxed group,
the Castagnoli checksum of a boxed validator set, and the hash of a configuration cell. -/
structure Env extends ShardLib where
  rng : Prng
  publicKeyHash : Hash → Hash
  groupHash : GroupNew → Hash
  setHash : UInt32 → List ValidatorAddr → UInt32
  configHash : RawConfig → Hash

structure UnsafeRotationRule where
  catchainSeqno : UInt32
  fromMasterchainSeqno : UInt32
  id : UInt32
  deriving DecidableEq

structure Session where
  id : Hash
  shard : ShardID
  catchainSeqno : UInt32
  validatorSetHash : UInt32
  validators : List Validator
  genesis : List BlockID
  registered : List ShardDescription
  minMasterchain : BlockID
  finalizedBlock : Option BlockID
  deriving DecidableEq

structure Snapshot where
  masterchainBlock : BlockID
  configRootHash : Hash
  genUTime : UInt32
  lastKeyBlockSeqno : UInt32
  ready : Bool
  lifecycleEnabled : Bool
  config : Config
  active : List Session
  future : List Session
  rotatedAllShards : Bool
  rotationID : UInt32
  deriving DecidableEq

/-- A session without its origin and its place in the current state. -/
def Session.core (s : Session) : Session :=
  { s with genesis := [], registered := [], minMasterchain := default, finalizedBlock := none }

inductive TransitionKind
  | stopped | discarded | promoted | started | prepared
  deriving DecidableEq

structure Transition where
  kind : TransitionKind
  session : Session
  deriving DecidableEq

structure ApplyInput where
  block : BlockID
  root : RawState
  asOf : Int

structure ApplyResult where
  snapshot : Snapshot
  transitions : List Transition

structure Tracker where
  maximalVerticalSeqno : UInt32
  startGroupsFromSeqno : UInt32
  unsafeRotations : List UnsafeRotationRule
  snapshot : Option Snapshot

/-- Why a state is not applied. -/
inductive TrackerError
  | observationTime
  | staleMasterchainState
  | conflictingMasterchainState
  | keyStateNotRotated
  | memberWeight
  | duplicateSession
  | activeAndFuture
  | futureOverflow
  | state (cause : StateError)
  | config (cause : ConfigError)
  | tentative (cause : TentativeError)
  | zeroRotation
  | duplicateRotation
  | alreadyBootstrapped
  | noSnapshot
  deriving DecidableEq

/-- Report a failure under a new name. -/
def orFail {ε ε' α : Type} (x : Except ε α) (f : ε → ε') : Except ε' α :=
  match x with
  | .ok a => .ok a
  | .error e => .error (f e)

@[simp] theorem orFail_eq_ok {ε ε' α : Type} {x : Except ε α} {f : ε → ε'} {a : α} :
    orFail x f = .ok a ↔ x = .ok a := by
  cases x <;> simp [orFail]

def newTracker (maximalVerticalSeqno startGroupsFromSeqno : UInt32)
    (rules : List UnsafeRotationRule) : Except TrackerError Tracker :=
  if rules.any (·.id == 0) then .error .zeroRotation
  else if !(rules.map (·.catchainSeqno)).Nodup then .error .duplicateRotation
  else .ok ⟨maximalVerticalSeqno, startGroupsFromSeqno, rules, none⟩

/-! ## Sessions -/

def sessionConfigHash : Hash :=
  0x0a5bf2399f172fee5a8e786f55a9d27149d1ed33e6b8e0cc81ef45fa3b8cb8d7#256

/-- The hash of an emergency rotation: its id in the first four bytes, low byte first. -/
def rotationConfigHash (id : UInt32) : Hash :=
  let byte (n : Nat) : BitVec 8 := (id.toBitVec >>> (8 * n)).setWidth 8
  ((byte 0 ++ byte 1 ++ byte 2 ++ byte 3 : BitVec 32) ++ (0#224 : BitVec 224) : BitVec 256)

def sessionID (env : Env) (maximalVerticalSeqno : UInt32) (shard : ShardID)
    (lastKeyBlockSeqno catchainSeqno rotationID : UInt32) (members : List Member) :
    Except TrackerError Hash :=
  if members.any (·.weight > 2 ^ 63 - 1) then .error .memberWeight
  else
    let configHash := if rotationID ≠ 0 then rotationConfigHash rotationID else sessionConfigHash
    .ok (env.groupHash ⟨shard.workchain, shard.shard, maximalVerticalSeqno, lastKeyBlockSeqno,
      catchainSeqno, configHash, members⟩)

def Validator.toMember (v : Validator) : Member := ⟨v.publicKeyHash, v.adnl, v.weight⟩

namespace Tracker

variable (env : Env) (t : Tracker)

def unsafeRotationID (masterchainSeqno catchainSeqno : UInt32) : UInt32 :=
  match t.unsafeRotations.find? (·.catchainSeqno == catchainSeqno) with
  | none => 0
  | some rule => if masterchainSeqno < rule.fromMasterchainSeqno then 0 else rule.id

def buildSession (config : Config) (validatorSet : ValidatorSet) (shard : ShardID)
    (catchainSeqno lastKeyBlockSeqno rotationID : UInt32) : Except TrackerError Session :=
  let validators := selectRoster env.rng
    ⟨validatorSet, shard.workchain, shard.shard, catchainSeqno, config.catchain⟩
  match sessionID env t.maximalVerticalSeqno shard lastKeyBlockSeqno catchainSeqno rotationID
    (validators.map (·.toMember)) with
  | .error e => .error e
  | .ok id => .ok
    { id, shard, catchainSeqno
      validatorSetHash := env.setHash catchainSeqno (validatorAddrs validators)
      validators
      genesis := []
      registered := []
      minMasterchain := default
      finalizedBlock := none }

def exactFinalizedBlock (state : State) (shard : ShardID) : Option BlockID :=
  if ShardID.isMasterchain shard then some state.block
  else (state.lookup shard).map (·.block)

/-- The order of `sortSessions`. -/
def sessionLess (a b : Session) : Bool :=
  if a.shard.workchain ≠ b.shard.workchain then
    a.shard.workchain.toInt < b.shard.workchain.toInt
  else if a.shard.shard ≠ b.shard.shard then a.shard.shard < b.shard.shard
  else if a.catchainSeqno ≠ b.catchainSeqno then a.catchainSeqno < b.catchainSeqno
  else a.id < b.id

def sortSessions (sessions : List Session) : List Session :=
  sessions.insertionSort fun a b => !sessionLess b a

/-- `reusableActiveSessions`, looked up: a configuration is the same object exactly when the
hash of its root did not change. -/
def reusable (previous : Option Snapshot) (configRootHash : Hash)
    (lastKeyBlockSeqno rotationID : UInt32) (shard : ShardID) (catchainSeqno : UInt32) :
    Option Session :=
  match previous with
  | none => none
  | some p =>
    if p.configRootHash ≠ configRootHash ∨ p.lastKeyBlockSeqno ≠ lastKeyBlockSeqno ∨
        p.rotationID ≠ rotationID then none
    else p.active.reverse.find? fun s => s.shard == shard && s.catchainSeqno == catchainSeqno

/-- The immutable half of an active session: reused, or built. -/
def activeCore (previous : Option Snapshot) (configRootHash : Hash) (config : Config)
    (shard : ShardID) (catchainSeqno lastKeyBlockSeqno rotationID : UInt32) :
    Except TrackerError Session :=
  match reusable previous configRootHash lastKeyBlockSeqno rotationID shard catchainSeqno with
  | some reused => .ok reused.core
  | none =>
    t.buildSession env config config.activeValidators shard catchainSeqno lastKeyBlockSeqno
      rotationID

/-- One target of `buildActiveSessions`. -/
def buildActiveSession (previous : Option Snapshot) (state : State) (configRootHash : Hash)
    (config : Config) (rotationID : UInt32) (target : Target) : Except TrackerError Session := do
  let catchainSeqno ← orFail (state.catchainSeqnoFor env.toShardLib target.shard) .state
  let session ← t.activeCore env previous configRootHash config target.shard catchainSeqno
    state.lastKeyBlockSeqno rotationID
  return { session with
    genesis := target.genesis
    registered := target.registered
    minMasterchain := state.block
    finalizedBlock := exactFinalizedBlock state target.shard }

def buildActiveSessions (previous : Option Snapshot) (state : State) (configRootHash : Hash)
    (config : Config) (rotationID : UInt32) : Except TrackerError (List Session) := do
  let targets ← orFail (state.currentTargets env.toShardLib) .state
  let sessions ← targets.mapM
    (t.buildActiveSession env previous state configRootHash config rotationID)
  return sortSessions sessions

/-- `futureShardHorizon`, in nanoseconds. -/
def futureShardHorizon : Int := 60000000000

/-- One shard of `buildFutureSessions`. -/
def buildFutureSession (state : State) (config : Config) (rotationID : UInt32)
    (masterchainSet shardSet : ValidatorSet) (shard : ShardID) : Except TrackerError Session := do
  let catchainSeqno ← orFail (state.catchainSeqnoFor env.toShardLib shard) .state
  require (catchainSeqno != 0xffffffff) .futureOverflow
  let validatorSet := if ShardID.isMasterchain shard then masterchainSet else shardSet
  let session ← t.buildSession env config validatorSet shard (catchainSeqno + 1)
    state.lastKeyBlockSeqno rotationID
  return { session with finalizedBlock := exactFinalizedBlock state shard }

def buildFutureSessions (state : State) (config : Config) (asOf : Int) (rotationID : UInt32) :
    Except TrackerError (List Session) := do
  let shards ← orFail (state.futureShards env.toShardLib asOf futureShardHorizon) .state
  let masterchainSet ← orFail (selectTentativeValidatorSet config.activeValidators
    config.nextValidators state.genUTime config.catchain.masterchainLifetime) .tentative
  let shardSet ← orFail (selectTentativeValidatorSet config.activeValidators
    config.nextValidators state.genUTime config.catchain.shardLifetime) .tentative
  let sessions ← shards.mapM
    (t.buildFutureSession env state config rotationID masterchainSet shardSet)
  return sortSessions sessions

end Tracker

/-! ## Reconciling with the snapshot before -/

/-- `indexSessions`: the error of building the index. -/
def indexSessions (sessions : List Session) : Except TrackerError Unit :=
  require ((sessions.map (·.id)).Nodup) .duplicateSession

/-- A session looked up in the index. -/
def sessionByID (sessions : List Session) (id : Hash) : Option Session :=
  sessions.find? (·.id == id)

def shardIsAncestor (lib : ShardLib) (ancestor shard : ShardID) : Bool :=
  ancestor.workchain == shard.workchain && lib.isAncestor ancestor.shard shard.shard

def futureSessionSuperseded (lib : ShardLib) (active : List Session) (future : Session) : Bool :=
  active.any fun current =>
    current.shard.workchain == future.shard.workchain &&
      ((current.shard.shard == future.shard.shard &&
          current.catchainSeqno ≥ future.catchainSeqno) ||
        ((shardIsAncestor lib current.shard future.shard ||
          shardIsAncestor lib future.shard current.shard) &&
          current.catchainSeqno > future.catchainSeqno))

def reconcileFutureSessions (lib : ShardLib) (previous : Option Snapshot)
    (active desired : List Session) : Except TrackerError (List Session) :=
  match previous with
  | none => .ok desired
  | some p => do
    indexSessions active
    indexSessions desired
    let kept := desired.filter fun s => !futureSessionSuperseded lib active s
    let carried := p.future.filter fun s =>
      (sessionByID active s.id).isNone && (sessionByID desired s.id).isNone &&
        !futureSessionSuperseded lib active s
    return Tracker.sortSessions (kept ++ carried)

def preserveActiveSession (next previous : Session) : Session :=
  { next with
    validators := previous.validators
    genesis := previous.genesis
    minMasterchain := previous.minMasterchain }

def preserveFutureSession (next previous : Session) : Session :=
  { next with validators := previous.validators }

/-- An active session, with what it keeps from the snapshot before. -/
def reconcileActive (p : Snapshot) (session : Session) : Session :=
  match sessionByID p.active session.id with
  | some old => preserveActiveSession session old
  | none =>
    match sessionByID p.future session.id with
    | some old => preserveFutureSession session old
    | none => session

/-- A tentative session, with what it keeps from the snapshot before. -/
def reconcileFuture (p : Snapshot) (session : Session) : Session :=
  match sessionByID p.future session.id with
  | some old => preserveFutureSession session old
  | none => session

/-- The lifecycle edges of `reconcileSnapshot`. -/
def transitions (p : Snapshot) (active future : List Session) : List Transition :=
  (p.active.filter fun s => (sessionByID active s.id).isNone).map (⟨.stopped, ·⟩) ++
    (p.future.filter fun s => (sessionByID active s.id).isNone &&
      (sessionByID future s.id).isNone).map (⟨.discarded, ·⟩) ++
    active.filterMap (fun s =>
      if (sessionByID p.active s.id).isSome then none
      else if (sessionByID p.future s.id).isSome then some ⟨.promoted, reconcileActive p s⟩
      else some ⟨.started, s⟩) ++
    future.filterMap (fun s =>
      if (sessionByID p.future s.id).isSome then none else some ⟨.prepared, s⟩)

/-- `reconcileSnapshot`: the edges, and the snapshot with what its sessions keep. -/
def reconcileSnapshot (previous : Option Snapshot) (next : Snapshot) :
    Except TrackerError (List Transition × Snapshot) :=
  match previous with
  | none =>
    .ok (next.active.map (⟨.started, ·⟩) ++ next.future.map (⟨.prepared, ·⟩), next)
  | some p => do
    indexSessions p.active
    indexSessions p.future
    indexSessions next.active
    indexSessions next.future
    require (!next.future.any fun s => (sessionByID p.future s.id).isNone &&
      (sessionByID next.active s.id).isSome) .activeAndFuture
    return (transitions p next.active next.future,
      { next with
        active := next.active.map (reconcileActive p)
        future := next.future.map (reconcileFuture p) })

/-! ## One state -/

namespace Tracker

variable (env : Env) (t : Tracker)

/-- The configuration of a state: the previous one while the hash of its root stays. -/
def configFor (previous : Option Snapshot) (root : RawConfig) : Except TrackerError Config :=
  match previous with
  | some p =>
    if p.configRootHash = env.configHash root then .ok p.config
    else orFail (parseConfig env.publicKeyHash root) .config
  | none => orFail (parseConfig env.publicKeyHash root) .config

/-- At the first state that may drive sessions the lifecycle starts anew, and active sessions
keep their origin all the same. -/
def catchUp (previous : Option Snapshot) (active : List Session) :
    Except TrackerError (List Session) :=
  match previous with
  | none => .ok active
  | some p => do
    indexSessions p.active
    return active.map fun s =>
      match sessionByID p.active s.id with
      | some old => preserveActiveSession s old
      | none => s

/-- The active and the tentative sessions of a state, before they are reconciled. -/
def buildSessions (previous : Option Snapshot) (state : State) (config : Config) (asOf : Int)
    (rotationID : UInt32) (firstEligible : Bool) :
    Except TrackerError (List Session × List Session) := do
  let active ← t.buildActiveSessions env previous state (env.configHash state.configRoot) config
    rotationID
  let future ←
    if state.rotatedAllShards then .ok []
    else do
      let desired ← t.buildFutureSessions env state config asOf rotationID
      reconcileFutureSessions env.toShardLib (if firstEligible then none else previous) active
        desired
  let active ← if firstEligible then catchUp previous active else .ok active
  return (active, future)

/-- `project` after the checks on the block id. -/
def projectState (previous : Option Snapshot) (input : ApplyInput) :
    Except TrackerError ApplyResult := do
  let state ← orFail (parseState env.toShardLib ⟨input.block, input.root⟩) .state
  require (!(state.isKeyState && !state.rotatedAllShards)) .keyStateNotRotated
  let config ← configFor env previous state.configRoot
  let ready := state.rotatedAllShards || previous.any (·.ready)
  let eligible : Bool := state.block.seqno ≥ t.startGroupsFromSeqno
  let firstEligible : Bool :=
    eligible && previous.all fun p => p.masterchainBlock.seqno < t.startGroupsFromSeqno
  let rotationID := t.unsafeRotationID state.block.seqno state.catchainSeqno
  let sessions ←
    if ready then t.buildSessions env previous state config input.asOf rotationID firstEligible
    else .ok ([], [])
  let (transitions, snapshot) ← reconcileSnapshot (if firstEligible then none else previous)
    { masterchainBlock := state.block
      configRootHash := env.configHash state.configRoot
      genUTime := state.genUTime
      lastKeyBlockSeqno := state.lastKeyBlockSeqno
      ready
      lifecycleEnabled := eligible
      config
      active := sessions.1
      future := sessions.2
      rotatedAllShards := state.rotatedAllShards
      rotationID }
  return ⟨snapshot, if eligible then transitions else []⟩

def project (previous : Option Snapshot) (input : ApplyInput) : Except TrackerError ApplyResult :=
  if input.asOf = State.zeroTime then .error .observationTime
  else
    match previous with
    | none => t.projectState env none input
    | some p =>
      if input.block.seqno < p.masterchainBlock.seqno then .error .staleMasterchainState
      else if input.block.seqno = p.masterchainBlock.seqno then
        if input.block = p.masterchainBlock then .ok ⟨p, []⟩
        else .error .conflictingMasterchainState
      else t.projectState env (some p) input

def apply (input : ApplyInput) : Except TrackerError (Tracker × List Transition) := do
  let result ← t.project env t.snapshot input
  return ({ t with snapshot := some result.snapshot }, result.transitions)

end Tracker

end Gton.Groups
