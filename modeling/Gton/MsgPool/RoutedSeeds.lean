import Gton.Lib.Pieces
import Gton.Lib.Sorted
import Gton.MsgPool.DestinationRouter

/-!
# Seeds routed from an out-queue

The entries of a source queue are dealt to the destinations their keys route to. The sequential
walk reads every entry. The split walk cuts the queue by key prefixes; with one destination wanted
it drops the prefixes that cannot reach it and reads no entry bound elsewhere.

Tasks share nothing, so a task of the split walk is the same whichever worker runs it.
-/

namespace Gton.MsgPool

open Gton.Shard Gton.Lib Gton.Lib.BitString Gton.Lib.Fallible

/-! ## The walks -/

/-- One leaf as a walk hands it out: `cell.AugDictItemView`. -/
structure QueueItem (Value : Type) where
  key : List Bool
  extra : List Bool
  value : Value

/-- A key prefix, in a cell that may not parse. -/
structure PrefixCell where
  data : List Bool
  parses : Bool
  deriving DecidableEq

inductive SeedFault
  | keyBits
  | augmentation
  | entry
  | keyMismatch
  | cut
  | notFound
  deriving DecidableEq

/-- What the walks use of the cell library, the message parser and the standard library. -/
structure QueueLibrary (Queue Value : Type) where
  /-- The items `ForEachBorrowed` hands out, in order. -/
  items : Queue → List (QueueItem Value)
  keyPrefixes : Queue → (bits limit : Nat) → Option (List PrefixCell)
  /-- `CutPrefixSubdict` of a copy; nothing if it fails or reports that it did not cut. -/
  cutPrefixSubdict : Queue → PrefixCell → Option Queue
  /-- The enqueued message of a leaf, through `InternalMessageFromEnvelope`. -/
  loadEnqueued : Value → Except SeedFault InternalMessage
  /-- `slices.SortFunc` by `CompareLtHash`. -/
  sortFunc : List InternalMessage → List InternalMessage
  sort_perm : ∀ l, (sortFunc l).Perm l
  sort_sorted : ∀ l, (sortFunc l).Pairwise fun a b => (compareLtHash a b).isLE = true

/-- The messages of each destination. -/
abbrev Runs := List (List InternalMessage)

structure SeedWalk where
  runs : Runs
  total : Nat

structure RoutedSeed where
  destination : ShardIdent
  messages : List InternalMessage

/-- `queueKeyFromView`, with the halves `NextHop` and `MsgHash` read of the key. -/
def queueKeyFromView (key : List Bool) : Except SeedFault QueueKey :=
  if key.length < 352 then .error .keyBits
  else .ok {
    nextHop := {
      workchain := BitVec.ofNat 32 (value (key.take 32))
      prefix_ := BitVec.ofNat 64 (value ((key.drop 32).take 64)) }
    msgHash := BitVec.ofNat 256 (value ((key.drop 96).take 256)) }

section Walks

variable {Queue Value : Type} (lib : QueueLibrary Queue Value) (source : ShardIdent)
  (top : SourceRef) (snapshot : Topology)

def decodeRoutedQueueEntry (leaf : Value) (queueKey : QueueKey) (canonicalLT : UInt64) :
    Except SeedFault InternalMessage := do
  let msg ← lib.loadEnqueued leaf
  if msg.key.msgHash ≠ queueKey.msgHash then .error .keyMismatch
  else return { msg with
    enqueuedLT := canonicalLT
    key := queueKey
    source := source
    sourceSeqno := top.seqno }

/-- The augmentation of a leaf is read before the leaf itself. -/
def decodeItem (item : QueueItem Value) (queueKey : QueueKey) : Except SeedFault InternalMessage :=
  match loadUInt 64 item.extra with
  | none => .error .augmentation
  | some (canonicalLT, _) =>
    decodeRoutedQueueEntry lib source top item.value queueKey (UInt64.ofNat canonicalLT)

/-- One step of a walk into runs; with one destination wanted the routing decision is taken before
the entry is read. -/
def walkItem (only : Option Nat) (walk : SeedWalk) (item : QueueItem Value) :
    Except SeedFault SeedWalk := do
  let queueKey ← queueKeyFromView item.key
  match only with
  | some index =>
    if snapshot.router.routes queueKey.nextHop index then
      let msg ← decodeItem lib source top item queueKey
      return ⟨walk.runs.modify index (· ++ [msg]), walk.total + 1⟩
    else return ⟨walk.runs, walk.total + 1⟩
  | none =>
    let msg ← decodeItem lib source top item queueKey
    return ⟨(snapshot.router.walk queueKey.nextHop).foldl
      (fun runs index => runs.modify index (· ++ [msg])) walk.runs, walk.total + 1⟩

/-- The empty runs of a topology. -/
def emptyRuns : Runs := List.replicate snapshot.destinations.length []

def seedPrefixRoute (pfx : PrefixCell) : Option (AccountPrefix × Nat) :=
  if !pfx.parses then none
  else
    match loadUInt 32 pfx.data with
    | none => none
    | some (workchain, rest) =>
      let bits := min rest.length 64
      if 0 < bits then
        match loadUInt bits rest with
        | none => none
        | some (value, _) =>
          some (⟨BitVec.ofNat 32 workchain, BitVec.ofNat 64 value <<< (64 - bits)⟩, bits)
      else some (⟨BitVec.ofNat 32 workchain, 0#64⟩, bits)

/-- Whether `filterSeedPrefixes` keeps a prefix; one without a route is kept. -/
def keepsPrefix (router : DestinationRouter) (only : Nat) (pfx : PrefixCell) : Bool :=
  match seedPrefixRoute pfx with
  | none => true
  | some (route, bits) => router.routesUnder route bits only

def filterSeedPrefixes (prefixes : List PrefixCell) (router : DestinationRouter) (only : Nat) :
    List PrefixCell :=
  prefixes.filter (keepsPrefix router only)

/-- One task of the split walk. -/
def seedTask (queue : Queue) (only : Option Nat) (pfx : PrefixCell) : Except SeedFault SeedWalk :=
  match lib.cutPrefixSubdict queue pfx with
  | none => .error .cut
  | some sub =>
    (lib.items sub).foldlM (walkItem lib source top snapshot only) ⟨emptyRuns snapshot, 0⟩

/-- The tasks of the split walk, joined in the order of their prefixes; the first task that failed
decides. -/
def runTasks (queue : Queue) (only : Option Nat) (prefixes : List PrefixCell) :
    Except SeedFault SeedWalk := do
  let tasks ← prefixes.mapM (seedTask lib source top snapshot queue only)
  let joined := tasks.foldl (fun runs task => List.zipWith (· ++ ·) runs task.runs)
    (emptyRuns snapshot)
  return ⟨joined.map lib.sortFunc, (tasks.map (·.total)).sum⟩

/-- `routedSeedsFromQueueParallel`; nothing where it declines to run. -/
def routedSeedsFromQueueParallel (queue : Queue) (only : Option Nat) :
    Option (Except SeedFault SeedWalk) :=
  match lib.keyPrefixes queue (32 + 6) 512 with
  | none => none
  | some prefixes =>
    if prefixes.length < 2 then none
    else
      match only with
      | none => some (runTasks lib source top snapshot queue only prefixes)
      | some index =>
        let kept := filterSeedPrefixes prefixes snapshot.router index
        if kept = [] then some (.ok ⟨emptyRuns snapshot, 0⟩)
        else some (runTasks lib source top snapshot queue only kept)

/-- The seeds of a topology with their messages. -/
def seedsOf (walk : SeedWalk) : List RoutedSeed × Nat :=
  (List.zipWith RoutedSeed.mk snapshot.destinations walk.runs, walk.total)

/-- The sequential walk of a queue. -/
def walkSequential (queue : Queue) : Except SeedFault SeedWalk := do
  let walk ← (lib.items queue).foldlM (walkItem lib source top snapshot none)
    ⟨emptyRuns snapshot, 0⟩
  return ⟨walk.runs.map lib.sortFunc, walk.total⟩

def routedSeedsFromStateRootWith (queue : Queue) (split : Bool) :
    Except SeedFault (List RoutedSeed × Nat) :=
  let whole := seedsOf snapshot <$> walkSequential lib source top snapshot queue
  if split then
    match routedSeedsFromQueueParallel lib source top snapshot queue none with
    | some result => seedsOf snapshot <$> result
    | none => whole
  else whole

/-- One step of the sequential walk for one destination. -/
def narrowItem (index : Nat) (messages : List InternalMessage) (item : QueueItem Value) :
    Except SeedFault (List InternalMessage) := do
  let queueKey ← queueKeyFromView item.key
  if snapshot.router.routes queueKey.nextHop index then
    let msg ← decodeItem lib source top item queueKey
    return messages ++ [msg]
  else return messages

def routedSeedsForDestination (queue : Queue) (destination : ShardIdent) :
    Except SeedFault (List InternalMessage) :=
  match snapshot.destinations.findIdx? (· = destination) with
  | none => .error .notFound
  | some index =>
    match routedSeedsFromQueueParallel lib source top snapshot queue (some index) with
    | some result => (fun walk => (walk.runs[index]?).getD []) <$> result
    | none =>
      lib.sortFunc <$> (lib.items queue).foldlM (narrowItem lib source top snapshot index) []

end Walks

/-! ## What the library promises -/

namespace QueueLibrary

variable {Queue Value : Type} (lib : QueueLibrary Queue Value) (queue : Queue)

/-- The cuts of the listed prefixes partition the keys of the queue. -/
structure PartitionsKeys : Prop where
  /-- A walk goes up the keys. -/
  ascending : (lib.items queue).Pairwise (·.key < ·.key)
  /-- Every key begins with exactly one of the prefixes. -/
  once : ∀ {bits limit prefixes}, lib.keyPrefixes queue bits limit = some prefixes →
    ∀ x ∈ lib.items queue, prefixes.countP (fun pfx => pfx.data.isPrefixOf x.key) = 1
  /-- A cut holds the keys that begin with the prefix. -/
  cut : ∀ {bits limit prefixes pfx}, lib.keyPrefixes queue bits limit = some prefixes →
    pfx ∈ prefixes → ∃ sub, lib.cutPrefixSubdict queue pfx = some sub ∧
      lib.items sub = (lib.items queue).filter fun x => pfx.data.isPrefixOf x.key

/-- The prefixes are listed in the order of the keys. -/
def InKeyOrder : Prop :=
  ∀ {bits limit prefixes}, lib.keyPrefixes queue bits limit = some prefixes →
    prefixes.Pairwise fun p q => ∀ x ∈ lib.items queue, ∀ y ∈ lib.items queue,
      p.data.isPrefixOf x.key = true → q.data.isPrefixOf y.key = true → x.key < y.key

/-- No two entries have the same lt and the same message hash. -/
def Untied : Prop :=
  ∀ x ∈ lib.items queue, ∀ y ∈ lib.items queue,
    (loadUInt 64 x.extra).map Prod.fst = (loadUInt 64 y.extra).map Prod.fst →
    (queueKeyFromView x.key).map (·.msgHash) = (queueKeyFromView y.key).map (·.msgHash) → x = y

end QueueLibrary

end Gton.MsgPool
