import Gton.MsgPool.Message
import Mathlib.Data.List.Nodup

/-!
# Versioned runs

One slice of entries serves every retained position of a source: an entry says which block
queued it and which one dequeued it, and the view at a position is a filter. This module is the
code: seeding, applying a block, trimming and compacting.
-/

namespace Gton.MsgPool

open Gton.Shard

/-- `removedAt = 0` says that the entry is queued. -/
structure RunEntry where
  msg : InternalMessage
  removedAt : UInt32
  deriving DecidableEq

def RunEntry.visibleAt (e : RunEntry) (seqno : UInt32) : Bool :=
  decide (e.msg.sourceSeqno ≤ seqno) && (e.removedAt == 0 || decide (e.removedAt > seqno))

def RunEntry.live (e : RunEntry) : Bool := e.removedAt == 0

structure SourceRun where
  top : SourceRef
  seedSeqno : UInt32
  refs : List SourceRef
  queueSize : Int64
  entries : List RunEntry
  byKey : QueueKey → Option Nat
  byEnv : Hash → Option Nat
  removedCount : Int
  lastExpiryFloor : UInt32

def maxSourceRefHistory : Nat := 256

/-- `max`. -/
def maxSeqno (a b : UInt32) : UInt32 := if a < b then b else a

theorem le_maxSeqno_left (a b : UInt32) : a ≤ maxSeqno a b := by
  unfold maxSeqno
  split
  next lt =>
    exact UInt32.le_of_lt lt
  · exact UInt32.le_refl a

theorem maxSeqno_le {a b c : UInt32} (ha : a ≤ c) (hb : b ≤ c) : maxSeqno a b ≤ c := by
  unfold maxSeqno
  split
  · exact hb
  · exact ha

namespace SourceRun

def hasRef (run : SourceRun) (ref : SourceRef) : Bool :=
  match run.refs with
  | [] => false
  | first :: _ =>
    if ref.seqno < first.seqno then false
    else run.refs[(ref.seqno - first.seqno).toNat]? == some ref

/-- The messages of the run at a position. -/
def view (run : SourceRun) (seqno : UInt32) : List InternalMessage :=
  (run.entries.filter (·.visibleAt seqno)).map (·.msg)

/-- Append one message and index it; the body of both the seed loop and the append loop. -/
def push (run : SourceRun) (msg : InternalMessage) : SourceRun :=
  { run with
    entries := run.entries ++ [⟨msg, 0⟩]
    byKey := Function.update run.byKey msg.key (some run.entries.length)
    byEnv := Function.update run.byEnv msg.envHash (some run.entries.length) }

/-- The loop of `seed`. -/
def seedLoop (run : SourceRun) : List InternalMessage → Except Disorder SourceRun
  | [] => .ok run
  | msg :: msgs =>
    if (run.byKey msg.key).isSome then .error .seedKey
    else if (run.byEnv msg.envHash).isSome then .error .seedEnvelope
    else seedLoop (run.push msg) msgs

/-- `removeFromRun` with what the index says. -/
def removeFromRun (run : SourceRun) (found : Option Nat) (seqno : UInt32) :
    Except Disorder SourceRun :=
  match found with
  | none => .error .untrackedRemoval
  | some idx =>
    match run.entries[idx]? with
    | none => .error .outOfRange
    | some e =>
      .ok { run with
        entries := run.entries.set idx { e with removedAt := seqno }
        removedCount := run.removedCount + 1
        byKey := Function.update run.byKey e.msg.key none
        byEnv := Function.update run.byEnv e.msg.envHash none }

/-- The removal loops: each name is looked up in the run as the earlier ones left it. -/
def removeEach {K : Type} (index : SourceRun → K → Option Nat) (seqno : UInt32) :
    List K → SourceRun → Except Disorder SourceRun
  | [], run => .ok run
  | k :: ks, run => do removeEach index seqno ks (← run.removeFromRun (index run k) seqno)

/-- The merge of `mergeRunAdditions`: an entry of the same order goes first, and must be gone. -/
def mergeEntries : List RunEntry → List InternalMessage → Except Disorder (List RunEntry)
  | [], added => .ok (added.map (⟨·, 0⟩))
  | entries, [] => .ok entries
  | e :: es, a :: as =>
    match compareLtHash e.msg a with
    | .eq =>
      if e.removedAt = 0 then .error .duplicateHash
      else do return e :: (← mergeEntries es (a :: as))
    | .lt => do return e :: (← mergeEntries es (a :: as))
    | .gt => do return ⟨a, 0⟩ :: (← mergeEntries (e :: es) as)

/-- Index the queued entries from position `i` on. -/
def reindex {K : Type} [DecidableEq K] (proj : InternalMessage → K) :
    Nat → List RunEntry → (K → Option Nat) → K → Option Nat
  | _, [], index => index
  | i, e :: es, index =>
    reindex proj (i + 1) es
      (if e.removedAt ≠ 0 then index else Function.update index (proj e.msg) (some i))

def mergeRunAdditions (run : SourceRun) (added : List InternalMessage) :
    Except Disorder SourceRun := do
  let merged ← mergeEntries run.entries added
  return { run with
    entries := merged
    byKey := reindex (·.key) 0 merged fun _ => none
    byEnv := reindex (·.envHash) 0 merged fun _ => none }

/-- The duplicate check of `addValidatedToRun`. -/
def checkNew (run : SourceRun) : List InternalMessage → Except Disorder Unit
  | [] => .ok ()
  | msg :: msgs =>
    if (run.byKey msg.key).isSome then .error .duplicatesKey
    else if (run.byEnv msg.envHash).isSome then .error .duplicatesEnvelope
    else checkNew run msgs

/-- `addValidatedToRun`; the tail is compared with its tombstones. -/
def addValidatedToRun (run : SourceRun) (added : List InternalMessage) :
    Except Disorder SourceRun := do
  checkNew run added
  if run.entries.getLast?.any (fun tail => added.head?.any fun first =>
      compareLtHash tail.msg first != .lt) then
    run.mergeRunAdditions added
  else return added.foldl push run

/-- The size accounting of `applyDeltaLocked`, which wraps. -/
def accountSize (run : SourceRun) (delta : InternalsDelta) : Except Disorder SourceRun :=
  let queueSize := run.queueSize + (delta.addedTotal - delta.removedTotal)
  if queueSize < 0 then .error .negativeSize
  else if delta.expectedQueueSize.any (queueSize != ·.toInt64) then .error .sizeDiverges
  else .ok { run with queueSize }

/-- `applyDeltaLocked`. -/
def applyDelta (run : SourceRun) (owner source : ShardIdent) (ref : SourceRef)
    (delta : InternalsDelta) : Except Disorder SourceRun := do
  validateSorted owner delta.added
  validateSource source ref.seqno delta.added
  -- removals first: a block may dequeue and re-enqueue under disjoint keys
  let run ← removeEach byKey ref.seqno delta.removedKeys run
  let run ← removeEach byEnv ref.seqno delta.removedEnvHashes run
  let run ← ite (delta.added.length > 0) (run.addValidatedToRun delta.added) (.ok run)
  run.accountSize delta

/-- The sweep of `trimSourceHistoryLocked`: expired tombstones go, the rest moves down. -/
def sweep (run : SourceRun) : Nat → List RunEntry → List RunEntry → SourceRun
  | _, [], compacted => { run with entries := compacted }
  | index, e :: es, compacted =>
    if e.removedAt ≠ 0 ∧ e.removedAt ≤ run.seedSeqno then
      sweep { run with removedCount := run.removedCount - 1 } (index + 1) es compacted
    else if e.removedAt = 0 ∧ index ≠ compacted.length then
      sweep { run with
        byKey := Function.update run.byKey e.msg.key (some compacted.length)
        byEnv := Function.update run.byEnv e.msg.envHash (some compacted.length) }
        (index + 1) es (compacted ++ [e])
    else sweep run (index + 1) es (compacted ++ [e])

/-- `trimSourceHistoryLocked`. -/
def trimSourceHistory (run : SourceRun) : SourceRun :=
  if run.refs.length ≤ maxSourceRefHistory then run
  else
    let refs := run.refs.drop (run.refs.length - maxSourceRefHistory)
    let floor := (refs.head?.map (·.seqno)).getD 0
    let run : SourceRun := { run with refs, seedSeqno := maxSeqno run.seedSeqno floor }
    if run.removedCount = 0 then { run with lastExpiryFloor := run.seedSeqno }
    else if run.seedSeqno - run.lastExpiryFloor < UInt32.ofNat maxSourceRefHistory then run
    else sweep { run with lastExpiryFloor := run.seedSeqno } 0 run.entries []

/-- `compactLocked`. -/
def compact (run : SourceRun) : SourceRun :=
  if run.removedCount ≤ 64 ∨ run.removedCount * 2 ≤ run.entries.length then run
  else
    let compacted := run.entries.filter (·.live)
    { run with
      entries := compacted
      removedCount := 0
      seedSeqno := run.top.seqno
      lastExpiryFloor := run.top.seqno
      refs := [run.top]
      byKey := reindex (·.key) 0 compacted fun _ => none
      byEnv := reindex (·.envHash) 0 compacted fun _ => none }

end SourceRun

/-- `destinationState`: the runs of one destination, by source. -/
structure DestinationState where
  owner : ShardIdent
  runs : ShardIdent → Option SourceRun

inductive ApplyError
  | gap
  | disorder (what : Disorder)

namespace DestinationState

def setRun (n : DestinationState) (source : ShardIdent) (run : Option SourceRun) :
    DestinationState :=
  { n with runs := Function.update n.runs source run }

/-- The run `seed` starts with. -/
def emptyRun (top : SourceRef) (queueTotal : UInt64) : SourceRun where
  top := top
  seedSeqno := top.seqno
  refs := [top]
  queueSize := queueTotal.toInt64
  entries := []
  byKey _ := none
  byEnv _ := none
  removedCount := 0
  lastExpiryFloor := top.seqno

/-- The run `seed` builds. -/
def seedRun (owner source : ShardIdent) (top : SourceRef) (msgs : List InternalMessage)
    (queueTotal : UInt64) : Except Disorder SourceRun := do
  validateSorted owner msgs
  validateSource source top.seqno msgs
  (emptyRun top queueTotal).seedLoop msgs

/-- `seed`: a failed seed leaves what was tracked. -/
def seed (n : DestinationState) (source : ShardIdent) (top : SourceRef)
    (msgs : List InternalMessage) (queueTotal : UInt64) : DestinationState × Option ApplyError :=
  match seedRun n.owner source top msgs queueTotal with
  | .error e => (n, some (.disorder e))
  | .ok run => (n.setRun source (some run), none)

/-- `applyBlock`: a delta that fails untracks the source. -/
def applyBlock (n : DestinationState) (source : ShardIdent) (ref : SourceRef)
    (delta : InternalsDelta) : DestinationState × Option ApplyError :=
  match n.runs source with
  | none => (n, some .gap)
  | some run =>
    if ref.seqno ≤ run.top.seqno then
      if run.hasRef ref then (n, none) else (n, some (.disorder .conflictingReplay))
    else if ref.seqno ≠ run.top.seqno + 1 then (n, some .gap)
    else
      match run.applyDelta n.owner source ref delta with
      | .error e => (n.setRun source none, some (.disorder e))
      | .ok run =>
        let run : SourceRun := { run with top := ref, refs := run.refs ++ [ref] }
        (n.setRun source (some run.trimSourceHistory.compact), none)

def dropSource (n : DestinationState) (source : ShardIdent) : DestinationState :=
  n.setRun source none

def pruneSources (n : DestinationState) (keep : ShardIdent → Bool) : DestinationState :=
  { n with runs := fun source => if keep source then n.runs source else none }

end DestinationState

/-- The operations of the feed. -/
inductive FeedOp
  | seed (source : ShardIdent) (top : SourceRef) (msgs : List InternalMessage)
      (queueTotal : UInt64)
  | applyBlock (source : ShardIdent) (ref : SourceRef) (delta : InternalsDelta)
  | dropSource (source : ShardIdent)
  | pruneSources (keep : ShardIdent → Bool)

def DestinationState.step (n : DestinationState) : FeedOp → DestinationState
  | .seed source top msgs queueTotal => (n.seed source top msgs queueTotal).1
  | .applyBlock source ref delta => (n.applyBlock source ref delta).1
  | .dropSource source => n.dropSource source
  | .pruneSources keep => n.pruneSources keep

def newDestinationState (owner : ShardIdent) : DestinationState := ⟨owner, fun _ => none⟩

end Gton.MsgPool
