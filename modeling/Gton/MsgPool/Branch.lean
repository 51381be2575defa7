import Gton.Lib.Merge
import Gton.MsgPool.Run
import Mathlib.Algebra.GroupWithZero.Nat
import Mathlib.Data.List.AList

/-!
# Candidate branches

A branch holds one session's speculative queue: a tree of candidates, each with the change its
block makes, over a base snapshot of committed queues. A cut at a tip merges the base and the
additions of the lineage, without what the lineage removed, with the pinned runs of the other
sources. This module is the code.

Candidates are immutable values: the source replaces nodes, it never edits them, so a node
carries its parent.
-/

namespace Gton.MsgPool

open Gton.Shard
open Gton.Lib.Merge (Reader Heap)

abbrev Map (K V : Type) := AList fun _ : K => V

def Map.values {K V : Type} (m : Map K V) : List V := m.entries.map (·.2)

/-- `CandidateSource`: one committed predecessor queue. -/
structure CandidateSource where
  source : ShardIdent
  visible : SourceRef
  deriving DecidableEq

structure CandidateRequest where
  id : Hash
  parent : Option Hash
  seqno : UInt32
  base : List CandidateSource
  delta : Option InternalsDelta

/-- `CutRequest`; the sources of the map in the order an iteration happens to take. -/
structure CutRequest where
  sources : List (ShardIdent × SourceRef)
  candidateTip : Option Hash
  candidateSources : List ShardIdent
  limit : Int

inductive CandidateInstall
  | added
  | reused
  deriving DecidableEq

/-- Why a position of a source cannot be served. -/
inductive CutError
  | notTracked
  | ahead
  | predates
  | rootHashMismatch
  deriving DecidableEq

inductive BranchError
  | closed
  | deltaRequired
  | zeroID
  | disorder (what : Disorder)
  | conflict
  | baseTopology
  | baseRedefined
  | unknownParent
  | notFollowing
  | baseDuplicate
  | absentKey
  | absentEnvelope
  | repeatsKey
  | repeatsEnvelope
  | repeatsOrder
  | unknownCandidate
  | notAdmitted
  | sourceConflict
  | cut (why : CutError)
  deriving DecidableEq

structure BranchBase where
  sources : List CandidateSource
  entries : List InternalMessage
  byKey : Map QueueKey InternalMessage
  byEnv : Map Hash InternalMessage
  byOrder : Map (Nat ×ₗ Nat) InternalMessage

structure BranchDelta where
  raw : InternalsDelta
  addedKey : Map QueueKey InternalMessage
  addedEnv : Map Hash InternalMessage
  addedOrder : Map (Nat ×ₗ Nat) InternalMessage
  removedKey : Map QueueKey InternalMessage
  removedEnv : Map Hash InternalMessage
  removedOrd : Map (Nat ×ₗ Nat) InternalMessage

/-- `branchCandidate`; a child has its parent's base. -/
inductive BranchCandidate
  | root (id : Hash) (seqno : UInt32) (base : BranchBase) (delta : BranchDelta)
  | child (id : Hash) (seqno : UInt32) (parent : BranchCandidate) (delta : BranchDelta)

namespace BranchCandidate

def id : BranchCandidate → Hash
  | root id _ _ _ => id
  | child id _ _ _ => id

def seqno : BranchCandidate → UInt32
  | root _ seqno _ _ => seqno
  | child _ seqno _ _ => seqno

def delta : BranchCandidate → BranchDelta
  | root _ _ _ delta => delta
  | child _ _ _ delta => delta

def parent : BranchCandidate → Option BranchCandidate
  | root _ _ _ _ => none
  | child _ _ parent _ => some parent

def base : BranchCandidate → BranchBase
  | root _ _ base _ => base
  | child _ _ parent _ => parent.base

/-- The candidate and its ancestors, from the tip to the root. -/
def lineage : BranchCandidate → List BranchCandidate
  | root id seqno base delta => [root id seqno base delta]
  | child id seqno parent delta => child id seqno parent delta :: parent.lineage

end BranchCandidate

/-! ## Sources -/

namespace DestinationState

/-- `sourceRunAtLocked`. -/
def sourceRunAt (n : DestinationState) (source : ShardIdent) (visible : SourceRef) :
    Except CutError SourceRun :=
  match n.runs source with
  | none => .error .notTracked
  | some run =>
    if visible.seqno > run.top.seqno then .error .ahead
    else if visible.seqno < run.seedSeqno then .error .predates
    else if !run.hasRef visible then .error .rootHashMismatch
    else .ok run

end DestinationState

structure Branch where
  destination : ShardIdent
  closed : Bool
  sources : Map (ShardIdent × SourceRef) (List InternalMessage)
  candidates : Map Hash BranchCandidate
  children : Map Hash (List Hash)

def newBranch (destination : ShardIdent) : Branch := ⟨destination, false, ∅, ∅, ∅⟩

/-- `equalBranchMessages`: the same content, whatever the objects. -/
def equalMessages : List InternalMessage → List InternalMessage → Bool
  | [], [] => true
  | a :: as, b :: bs => decide ({ a with obj := 0 } = { b with obj := 0 }) && equalMessages as bs
  | _, _ => false

def equalInternalsDelta (left right : InternalsDelta) : Bool :=
  decide (left.addedTotal = right.addedTotal) && decide (left.removedTotal = right.removedTotal) &&
    decide (left.expectedQueueSize = right.expectedQueueSize) &&
    equalMessages left.added right.added && decide (left.removedKeys = right.removedKeys) &&
    decide (left.removedEnvHashes = right.removedEnvHashes)

namespace Branch

def kids (b : Branch) (id : Hash) : List Hash := (b.children.lookup id).getD []

def seedSource (b : Branch) (source : ShardIdent) (visible : SourceRef)
    (msgs : List InternalMessage) : Branch × Option BranchError :=
  match validateSorted b.destination msgs, validateSource source visible.seqno msgs with
  | .error e, _ => (b, some (.disorder e))
  | .ok _, .error e => (b, some (.disorder e))
  | .ok _, .ok _ =>
    if b.closed then (b, some .closed)
    else
      match b.sources.lookup (source, visible) with
      | some current => (b, if equalMessages current msgs then none else some .sourceConflict)
      | none => ({ b with sources := b.sources.insert (source, visible) msgs }, none)

/-- `pinSourceLocked`: what is pinned stays, and the first pin copies the view. -/
def pinSource (b : Branch) (n : DestinationState) (source : ShardIdent) (visible : SourceRef) :
    Branch × Except CutError (List InternalMessage) :=
  match b.sources.lookup (source, visible) with
  | some view => (b, .ok view)
  | none =>
    match n.sourceRunAt source visible with
    | .error e => (b, .error e)
    | .ok run =>
      let entries := run.view visible.seqno
      ({ b with sources := b.sources.insert (source, visible) entries }, .ok entries)

/-- Pin one source after the other; the pins made before a failure stay. -/
def pinAll (n : DestinationState) : List (ShardIdent × SourceRef) → Branch →
    Branch × Except CutError (List (List InternalMessage))
  | [], b => (b, .ok [])
  | (source, visible) :: rest, b =>
    match b.pinSource n source visible with
    | (b, .error e) => (b, .error e)
    | (b, .ok view) =>
      match pinAll n rest b with
      | (b, .error e) => (b, .error e)
      | (b, .ok views) => (b, .ok (view :: views))

end Branch

/-! ## Bases -/

def mergeBranchEntries : List InternalMessage → List InternalMessage → List InternalMessage
  | [], right => right
  | left, [] => left
  | l :: ls, r :: rs =>
    if compareLtHash l r = .gt then r :: mergeBranchEntries (l :: ls) rs
    else l :: mergeBranchEntries ls (r :: rs)

/-- The indexing loop of `newBranchBase`. -/
def indexBase : List InternalMessage → BranchBase → Except BranchError BranchBase
  | [], base => .ok base
  | m :: ms, base =>
    if (base.byKey.lookup m.key).isSome ∨ (base.byEnv.lookup m.envHash).isSome ∨
        (base.byOrder.lookup m.order).isSome then .error .baseDuplicate
    else
      indexBase ms { base with
        byKey := base.byKey.insert m.key m
        byEnv := base.byEnv.insert m.envHash m
        byOrder := base.byOrder.insert m.order m }

def newBranchBase (sources : List CandidateSource) (entries : List InternalMessage) :
    Except BranchError BranchBase :=
  indexBase entries ⟨sources, entries, ∅, ∅, ∅⟩

/-- `snapshotBaseLocked`; a validated base has one or two sources. -/
def Branch.snapshotBase (b : Branch) (n : DestinationState) (sources : List CandidateSource) :
    Branch × Except BranchError BranchBase :=
  match b.pinAll n (sources.map fun s => (s.source, s.visible)) with
  | (b, .error e) => (b, .error (.cut e))
  | (b, .ok [left, right]) => (b, newBranchBase sources (mergeBranchEntries left right))
  | (b, .ok streams) => (b, newBranchBase sources (streams.headD []))

/-! ## Deltas -/

/-- The walk of `lookupKey`, `lookupEnv` and `lookupOrder`: the newest delta that queued or
removed the name decides. -/
def BranchCandidate.lookup {K : Type} [DecidableEq K]
    (added removed : BranchDelta → Map K InternalMessage)
    (based : BranchBase → Map K InternalMessage) (k : K) : BranchCandidate → Option InternalMessage
  | .root _ _ base delta =>
    match (added delta).lookup k with
    | some m => some m
    | none => if ((removed delta).lookup k).isSome then none else (based base).lookup k
  | .child _ _ parent delta =>
    match (added delta).lookup k with
    | some m => some m
    | none =>
      if ((removed delta).lookup k).isSome then none else parent.lookup added removed based k

/-- The three lookups of a new candidate: at its parent, or in the base it starts from. -/
structure Lookups where
  key : QueueKey → Option InternalMessage
  env : Hash → Option InternalMessage
  order : Nat ×ₗ Nat → Option InternalMessage

def BranchCandidate.lookups (c : BranchCandidate) : Lookups where
  key k := c.lookup (·.addedKey) (·.removedKey) (·.byKey) k
  env k := c.lookup (·.addedEnv) (·.removedEnv) (·.byEnv) k
  order k := c.lookup (·.addedOrder) (·.removedOrd) (·.byOrder) k

def BranchBase.lookups (base : BranchBase) : Lookups where
  key k := base.byKey.lookup k
  env k := base.byEnv.lookup k
  order k := base.byOrder.lookup k

def BranchDelta.recordRemoval (d : BranchDelta) (m : InternalMessage) : BranchDelta :=
  { d with
    removedKey := d.removedKey.insert m.key m
    removedEnv := d.removedEnv.insert m.envHash m
    removedOrd := d.removedOrd.insert m.order m }

/-- The two removal loops of `indexDeltaLocked`. -/
def indexRemovals {K : Type} (look : K → Option InternalMessage) (absent : BranchError) :
    List K → BranchDelta → Except BranchError BranchDelta
  | [], d => .ok d
  | k :: ks, d =>
    match look k with
    | none => .error absent
    | some m =>
      if (d.removedKey.lookup m.key).isSome then .error absent
      else indexRemovals look absent ks (d.recordRemoval m)

/-- The addition loop of `indexDeltaLocked`. -/
def indexAdditions (look : Lookups) :
    List InternalMessage → BranchDelta → Except BranchError BranchDelta
  | [], d => .ok d
  | m :: ms, d =>
    if (look.key m.key).any fun current => (d.removedKey.lookup current.key).isNone then
      .error .repeatsKey
    else if (look.env m.envHash).any fun current =>
        (d.removedEnv.lookup current.envHash).isNone then .error .repeatsEnvelope
    else if (look.order m.order).any fun _ => (d.removedOrd.lookup m.order).isNone then
      .error .repeatsOrder
    else
      indexAdditions look ms { d with
        addedKey := d.addedKey.insert m.key m
        addedEnv := d.addedEnv.insert m.envHash m
        addedOrder := d.addedOrder.insert m.order m }

/-- `indexDeltaLocked`. -/
def indexDelta (look : Lookups) (raw : InternalsDelta) : Except BranchError BranchDelta := do
  let d ← indexRemovals look.key .absentKey raw.removedKeys ⟨raw, ∅, ∅, ∅, ∅, ∅, ∅⟩
  let d ← indexRemovals look.env .absentEnvelope raw.removedEnvHashes d
  indexAdditions look raw.added d

/-! ## Adding candidates -/

def compareShardIdent (left right : ShardIdent) : Ordering :=
  if left.workchain ≠ right.workchain then compare left.workchain.toInt right.workchain.toInt
  else compare left.shard.toNat right.shard.toNat

def isDirectShardChild (parent child : ShardIdent) : Bool :=
  if parent.workchain ≠ child.workchain ∨ parent.shard = 0#64 ∨ child.shard = 0#64 then false
  else
    let parentTag := parent.shard &&& (~~~parent.shard + 1#64)
    let childTag := child.shard &&& (~~~child.shard + 1#64)
    parentTag >>> 1 == childTag && parent.contains child.workchain child.shard

def validateCandidateBaseTopology (owner : ShardIdent) (base : List CandidateSource)
    (seqno : UInt32) : Bool :=
  let fits := match base with
    | [only] =>
      if owner.workchain = -1#32 then decide (only.source = owner)
      else decide (only.source = owner) || isDirectShardChild only.source owner
    | [left, right] =>
      compareShardIdent left.source right.source == .lt && owner.workchain != -1#32 &&
        isDirectShardChild owner left.source && isDirectShardChild owner right.source
    | _ => false
  fits && (base.foldl (fun top s => maxSeqno top s.visible.seqno) 0).toNat + 1 == seqno.toNat

/-- `branchCandidateMatches`. -/
def candidateMatches (c : BranchCandidate) (request : CandidateRequest) (delta : InternalsDelta) :
    Bool :=
  decide (c.seqno = request.seqno) &&
    (match c, request.parent with
    | .root _ _ base _, none => decide (base.sources = request.base)
    | .child _ _ parent _, some id => decide (parent.id = id)
    | _, _ => false) &&
    equalInternalsDelta c.delta.raw delta

/-- `branchCandidateMatchesPromotedBase`. -/
def candidateMatchesPromotedBase (destination : ShardIdent) (c : BranchCandidate)
    (request : CandidateRequest) (delta : InternalsDelta) : Bool :=
  decide (c.seqno = request.seqno) && equalInternalsDelta c.delta.raw delta &&
    match c, request.parent, request.base with
    | .child _ _ parent _, none, [only] =>
      decide (only = ⟨destination, ⟨parent.seqno, parent.id⟩⟩)
    | .root _ _ base _, some id, [] =>
      decide (base.sources = [⟨destination, ⟨request.seqno - 1, id⟩⟩])
    | _, _, _ => false

namespace Branch

/-- Install a node under its id and among its parent's children. -/
def install (b : Branch) (c : BranchCandidate) : Branch :=
  { b with
    candidates := b.candidates.insert c.id c
    children :=
      match c.parent with
      | none => b.children
      | some parent => b.children.insert parent.id (c.id :: (b.kids parent.id).filter (· ≠ c.id)) }

def addCandidate (b : Branch) (n : DestinationState) (request : CandidateRequest)
    (allowPromotedBase : Bool) : Branch × Except BranchError CandidateInstall :=
  match request.delta with
  | none => (b, .error .deltaRequired)
  | some delta =>
    if request.id = 0 then (b, .error .zeroID)
    else
      match validateSorted b.destination delta.added,
        validateSource b.destination request.seqno delta.added with
      | .error e, _ => (b, .error (.disorder e))
      | .ok _, .error e => (b, .error (.disorder e))
      | .ok _, .ok _ =>
        if b.closed then (b, .error .closed)
        else
          match b.candidates.lookup request.id with
          | some existing =>
            if candidateMatches existing request delta || (allowPromotedBase &&
                candidateMatchesPromotedBase b.destination existing request delta) then
              (b, .ok .reused)
            else (b, .error .conflict)
          | none =>
            match request.parent with
            | none =>
              if !validateCandidateBaseTopology b.destination request.base request.seqno then
                (b, .error .baseTopology)
              else
                match b.snapshotBase n request.base with
                | (b, .error e) => (b, .error e)
                | (b, .ok base) =>
                  match indexDelta base.lookups delta with
                  | .error e => (b, .error e)
                  | .ok indexed =>
                    (b.install (.root request.id request.seqno base indexed), .ok .added)
            | some parentID =>
              if request.base ≠ [] then (b, .error .baseRedefined)
              else
                match b.candidates.lookup parentID with
                | none => (b, .error .unknownParent)
                | some parent =>
                  if request.seqno ≠ parent.seqno + 1 then (b, .error .notFollowing)
                  else
                    match indexDelta parent.lookups delta with
                    | .error e => (b, .error e)
                    | .ok indexed =>
                      (b.install (.child request.id request.seqno parent indexed), .ok .added)

end Branch

/-! ## Cuts -/

/-- `branchCursor`: what is left to read, and what of it is live (`none` keeps everything). -/
structure BranchCursor where
  entries : List InternalMessage
  live : Option (InternalMessage → Bool)

def isLive (live : Option (InternalMessage → Bool)) (m : InternalMessage) : Bool :=
  match live with
  | none => true
  | some live => live m

/-- The scan of `advance`. -/
def advanceFrom (live : Option (InternalMessage → Bool)) :
    List InternalMessage → Option (InternalMessage × BranchCursor)
  | [] => none
  | m :: rest => if isLive live m then some (m, ⟨rest, live⟩)
    else advanceFrom live rest

/-- `advance`: the next live message. -/
def BranchCursor.advance (c : BranchCursor) : Option (InternalMessage × BranchCursor) :=
  advanceFrom c.live c.entries

/-- The identities removed and not added again, from the root to the tip. -/
def goneAlong (deltas : List BranchDelta) : List InternalMessage :=
  deltas.foldl (fun gone d =>
    (gone ++ d.removedOrd.values).filter fun m => decide (m ∉ d.raw.added)) []

def lineageLive (tip : BranchCandidate) : Option (InternalMessage → Bool) :=
  let deltas := tip.lineage.map (·.delta)
  if (deltas.map fun d => d.removedOrd.keys.length).sum = 0 then none
  else
    let gone := goneAlong deltas.reverse
    some fun m => decide (m ∉ gone)

def lineageCursors (tip : BranchCandidate) : List BranchCursor :=
  let live := lineageLive tip
  ⟨tip.base.entries, live⟩ ::
    ((tip.lineage.map (·.delta.raw.added)).filter fun added => !added.isEmpty).map (⟨·, live⟩)

/-- A started cursor with its current message. -/
abbrev Started := InternalMessage × BranchCursor

/-- The order of the heap. -/
def rank (c : Started) : Nat ×ₗ Nat := c.1.order

/-- All that is still to come. -/
def BranchCursor.items (c : BranchCursor) : List InternalMessage :=
  c.entries.filter (isLive c.live)

theorem BranchCursor.items_eq (c : BranchCursor) :
    c.items = (c.advance.map fun c : Started => c.1 :: c.2.items).getD [] := by
  obtain ⟨entries, live⟩ := c
  unfold items advance
  dsimp only
  induction entries with
  | nil => rfl
  | cons e es ih =>
    rw [List.filter_cons, advanceFrom]
    by_cases keeps : isLive live e = true
    · rw [if_pos keeps, if_pos keeps]
      rfl
    · rw [if_neg keeps, if_neg keeps]
      exact ih

/-- How started cursors are read. -/
def started : Reader Started InternalMessage where
  current c := c.1
  advance c := c.2.advance
  items c := c.1 :: c.2.items
  unfold c := congrArg (c.1 :: ·) c.2.items_eq

/-- `Cut`; the pager is the heap after the page before. -/
structure Cut where
  messages : List InternalMessage
  more : Bool
  loadMore : Option (List Started)

/-- `mergeBranchCursors`. A limit that is not positive is `MaxInt`, more than any slice holds, so
it is as good as all that is to come. -/
def mergeBranchCursors (heap : Heap Started rank) (cursors : List BranchCursor)
    (limit : Int) : Cut :=
  let merge := heap.init (cursors.filterMap (·.advance))
  let limit := if limit ≤ 0 then (Lib.Merge.pending started merge).length else limit.toNat
  let (messages, left) := Lib.Merge.drain started heap limit merge
  { messages, more := !left.isEmpty, loadMore := if left.isEmpty then none else some left }

/-- `LoadMore`. -/
def Cut.next (heap : Heap Started rank) (c : Cut) (limit : Int) : Cut :=
  match c.loadMore with
  | none => c
  | some merge =>
    if limit ≤ 0 ∨ c.more = false then c
    else
      let (messages, left) := Lib.Merge.drain started heap limit.toNat merge
      { messages := c.messages ++ messages
        more := !left.isEmpty
        loadMore := if left.isEmpty then none else some left }

namespace Branch

/-- The sources a tip stands for, if all of them are admitted. -/
def replaced (tip : BranchCandidate) (request : CutRequest) :
    Except BranchError (List ShardIdent) :=
  if tip.base.sources.all fun s =>
      (request.sources.any (·.1 = s.source)) || request.candidateSources.contains s.source then
    .ok (request.candidateSources ++ tip.base.sources.map (·.source))
  else .error .notAdmitted

def cut (heap : Heap Started rank) (b : Branch) (n : DestinationState) (request : CutRequest) :
    Branch × Except BranchError Cut :=
  if b.closed then (b, .error .closed)
  else
    let lineage : Except BranchError (List BranchCursor × List ShardIdent) :=
      match request.candidateTip with
      | none => .ok ([], [])
      | some id =>
        match b.candidates.lookup id with
        | none => .error .unknownCandidate
        | some tip => (replaced tip request).map fun skip => (lineageCursors tip, skip)
    match lineage with
    | .error e => (b, .error e)
    | .ok (cursors, skip) =>
      match b.pinAll n (request.sources.filter fun s => !skip.contains s.1) with
      | (b, .error e) => (b, .error (.cut e))
      | (b, .ok views) =>
        (b, .ok (mergeBranchCursors heap (cursors ++ views.map (⟨·, none⟩)) request.limit))

/-! ## Forgetting candidates -/

/-- The loop of `Retain`: every descendant of what is pending is kept. -/
def keepDescendants (b : Branch) : Nat → List Hash → List Hash → Option (List Hash)
  | _, [], keep => some keep
  | 0, _ :: _, _ => none
  | fuel + 1, id :: pending, keep =>
    let fresh := (b.kids id).filter (· ∉ keep)
    keepDescendants b fuel (fresh ++ pending) (fresh ++ keep)

/-- The children of the nodes that are left. -/
def relink (nodes : List BranchCandidate) : Map Hash (List Hash) :=
  nodes.foldl (fun children c =>
    match c.parent with
    | none => children
    | some parent =>
      children.insert parent.id (c.id :: ((children.lookup parent.id).getD []))) ∅

/-- Keep the entries of a map whose key is kept. -/
def restrict {K V : Type} [DecidableEq K] (m : Map K V) (keep : K → Bool) : Map K V :=
  m.keys.foldl (fun m k => if keep k then m else m.erase k) m

/-- `Retain`; `none` says that the loop still runs after `fuel` rounds. -/
def retain (fuel : Nat) (b : Branch) (tip : Option Hash) : Option (Branch × Option BranchError) :=
  if b.closed then some (b, some .closed)
  else
    match tip with
    | none => some ({ b with candidates := ∅, children := ∅, sources := ∅ }, none)
    | some id =>
      match b.candidates.lookup id with
      | none => some (b, some .unknownCandidate)
      | some tip => do
        let keep ← b.keepDescendants fuel [tip.id] (tip.lineage.map (·.id))
        let candidates := restrict b.candidates (keep.contains ·)
        let sources := restrict b.sources fun key =>
          tip.base.sources.any fun s => (s.source, s.visible) = key
        return ({ b with candidates, sources, children := relink candidates.values }, none)

/-- The newest strict ancestor that the destination has applied, and its child on the way. -/
def committedAncestor (run : SourceRun) :
    BranchCandidate → Option (BranchCandidate × BranchCandidate)
  | .root _ _ _ _ => none
  | .child id seqno parent delta =>
    if run.hasRef ⟨parent.seqno, parent.id⟩ then some (.child id seqno parent delta, parent)
    else committedAncestor run parent

/-- Copy the children of a new node; a child that is not held would stop the source. -/
def copyChildren (parent : BranchCandidate) :
    List Hash → Map Hash BranchCandidate → Option (Map Hash BranchCandidate × List BranchCandidate)
  | [], candidates => some (candidates, [])
  | id :: ids, candidates => do
    let current ← candidates.lookup id
    let copied := BranchCandidate.child id current.seqno parent current.delta
    let (candidates, copies) ← copyChildren parent ids (candidates.insert id copied)
    return (candidates, copied :: copies)

/-- The copying loop of `RebaseCommitted`. -/
def copyTree (b : Branch) : Nat → List BranchCandidate → Map Hash BranchCandidate →
    Option (Map Hash BranchCandidate)
  | _, [], candidates => some candidates
  | 0, _ :: _, _ => none
  | fuel + 1, parent :: pending, candidates => do
    let (candidates, copies) ← copyChildren parent (b.kids parent.id) candidates
    copyTree b fuel (copies ++ pending) candidates

/-- Forget a node. -/
def forget (b : Branch) (id : Hash) : Branch :=
  { b with candidates := b.candidates.erase id, children := b.children.erase id }

def rebaseCommitted (heap : Heap Started rank) (fuel : Nat) (b : Branch) (n : DestinationState)
    (tip : Hash) : Option (Branch × Option BranchError) :=
  if b.closed then some (b, some .closed)
  else
    match b.candidates.lookup tip, n.runs b.destination with
    | none, _ => some (b, some .unknownCandidate)
    | some _, none => some (b, none)
    | some candidate, some run =>
      match committedAncestor run candidate with
      | none => some (b, none)
      | some (child, committed) =>
        let queue := (mergeBranchCursors heap (lineageCursors committed) 0).messages
        match newBranchBase [⟨b.destination, ⟨committed.seqno, committed.id⟩⟩] queue with
        | .error e => some (b, some e)
        | .ok base => do
          let root := BranchCandidate.root child.id child.seqno base child.delta
          let candidates ← b.copyTree fuel [root] (b.candidates.insert root.id root)
          let b := committed.lineage.foldl (fun b c => b.forget c.id) { b with candidates }
          let sources := child.base.sources.foldl
            (fun sources s => sources.erase (s.source, s.visible)) b.sources
          return ({ b with sources }, none)

/-- The loop of `dropTreeLocked`. -/
def dropTree : Nat → List Hash → Branch → Option Branch
  | _, [], b => some b
  | 0, _ :: _, _ => none
  | fuel + 1, id :: pending, b =>
    match b.candidates.lookup id with
    | none => dropTree fuel pending b
    | some candidate =>
      let kids := b.kids id
      let b := b.forget id
      let b :=
        match candidate.parent with
        | none => b
        | some parent =>
          match b.children.lookup parent.id with
          | none => b
          | some siblings =>
            { b with children := b.children.insert parent.id (siblings.filter (· ≠ id)) }
      dropTree fuel (kids ++ pending) b

def dropCandidate (fuel : Nat) (b : Branch) (id : Hash) : Option Branch :=
  if b.closed then some b else dropTree fuel [id] b

def close (b : Branch) : Branch :=
  { b with closed := true, sources := ∅, candidates := ∅, children := ∅ }

end Branch

/-! ## The system -/

/-- A branch and the destination it reads from. -/
structure System where
  pool : DestinationState
  branch : Branch

inductive BranchOp
  | seedSource (source : ShardIdent) (visible : SourceRef) (msgs : List InternalMessage)
  | pinSource (source : ShardIdent) (visible : SourceRef)
  | addCandidate (request : CandidateRequest) (allowPromotedBase : Bool)
  | cut (request : CutRequest)
  | retain (tip : Option Hash)
  | rebaseCommitted (tip : Hash)
  | dropCandidate (id : Hash)
  | close

inductive Event
  | feed (op : FeedOp)
  | branch (op : BranchOp)

/-- One operation; `none` if a loop of it does not end within `fuel` rounds. -/
def System.step (heap : Heap Started rank) (fuel : Nat) (s : System) : Event → Option System
  | .feed op => some { s with pool := s.pool.step op }
  | .branch op => (fun b => { s with branch := b }) <$>
    match op with
    | .seedSource source visible msgs => some (s.branch.seedSource source visible msgs).1
    | .pinSource source visible =>
      some (if s.branch.closed then s.branch else (s.branch.pinSource s.pool source visible).1)
    | .addCandidate request allow => some (s.branch.addCandidate s.pool request allow).1
    | .cut request => some (s.branch.cut heap s.pool request).1
    | .retain tip => (s.branch.retain fuel tip).map (·.1)
    | .rebaseCommitted tip => (s.branch.rebaseCommitted heap fuel s.pool tip).map (·.1)
    | .dropCandidate id => s.branch.dropCandidate fuel id
    | .close => some s.branch.close

end Gton.MsgPool
