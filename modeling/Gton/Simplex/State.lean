import Gton.Simplex.Candidate
import Gton.Simplex.CertificateVerify
import Gton.Simplex.Slots

/-!
# The state of one engine

Pool, voter, journal and the calls the engine makes to the outside. The engine runs under
`Runner`: a journal or candidate-service completion is always posted back to the loop, so it
is an input of its own and never runs on the stack of the call that started it. Closures the
source queues until the end of a transition are the constructors of `Deferred`.

Counters, logs and the timing of own candidates do not influence the engine and are left out.
-/

namespace Gton.Simplex

/-! ## Per-validator voting records -/

/-- `proven`: a vote with its evidence, either its own signature or a certificate. -/
structure Proven where
  vote : Vote
  sig : Signature
  cert : Option Certificate
  deriving DecidableEq, Repr

def Proven.fromCert (p : Proven) : Bool := p.cert.isSome

structure ConflictEvidence where
  a : Proven
  b : Proven
  deriving DecidableEq, Repr

structure ValidatorVotes where
  notarize : Option Proven := none
  skip : Option Proven := none
  finalize : Option Proven := none
  deriving DecidableEq, Repr

namespace ValidatorVotes

def byKind (vv : ValidatorVotes) : VoteKind → Option Proven
  | .notarize => vv.notarize
  | .finalize => vv.finalize
  | .skip => vv.skip

def setKind (vv : ValidatorVotes) (k : VoteKind) (p : Option Proven) : ValidatorVotes :=
  match k with
  | .notarize => { vv with notarize := p }
  | .finalize => { vv with finalize := p }
  | .skip => { vv with skip := p }

def wants (vv : ValidatorVotes) (v : Vote) : Bool := (vv.byKind v.kind).isNone

/-- Notarize and finalize name one candidate; finalize and skip exclude each other. -/
def checkInvariants (vv : ValidatorVotes) : Option ConflictEvidence :=
  match vv.finalize with
  | none => none
  | some f =>
    match vv.notarize with
    | some n =>
      if n.vote.id ≠ f.vote.id then some ⟨n, f⟩
      else
        match vv.skip with
        | some s => some ⟨f, s⟩
        | none => none
    | none =>
      match vv.skip with
      | some s => some ⟨f, s⟩
      | none => none

/-- The record after the call, whether the vote was newly applied, and the two records of a
provable conflict. A conflicting vote is rolled back. -/
def add (vv : ValidatorVotes) (p : Proven) : ValidatorVotes × Bool × Option ConflictEvidence :=
  match vv.byKind p.vote.kind with
  | some old =>
    if (p.vote.kind = .notarize ∨ p.vote.kind = .finalize) ∧ old.vote ≠ p.vote then
      (vv, false, some ⟨p, old⟩)
    else (vv, false, none)
  | none =>
    let vv' := vv.setKind p.vote.kind (some p)
    match vv'.checkInvariants with
    | some ev => (vv, false, some ev)
    | none => (vv', true, none)

end ValidatorVotes

/-! ## Pool -/

structure PoolSlot where
  votes : Nat → ValidatorVotes
  notarCert : Option Certificate
  skipCert : Option Certificate
  finalCert : Option Certificate
  notarSaving : Bool
  skipSaving : Bool
  finalSaving : Bool
  skipWeight : UInt64
  notarizeWeight : CandidateID → UInt64
  finalizeWeight : CandidateID → UInt64
  availableBase : Option ParentID

instance : Inhabited PoolSlot :=
  ⟨{ votes := fun _ => {}, notarCert := none, skipCert := none, finalCert := none,
     notarSaving := false, skipSaving := false, finalSaving := false, skipWeight := 0,
     notarizeWeight := fun _ => 0, finalizeWeight := fun _ => 0, availableBase := none }⟩

namespace PoolSlot

def certByKind (s : PoolSlot) : VoteKind → Option Certificate
  | .notarize => s.notarCert
  | .finalize => s.finalCert
  | .skip => s.skipCert

def savingByKind (s : PoolSlot) : VoteKind → Bool
  | .notarize => s.notarSaving
  | .finalize => s.finalSaving
  | .skip => s.skipSaving

def setSaving (s : PoolSlot) (k : VoteKind) (b : Bool) : PoolSlot :=
  match k with
  | .notarize => { s with notarSaving := b }
  | .finalize => { s with finalSaving := b }
  | .skip => { s with skipSaving := b }

/-- Record an accepted certificate and clear its saving flag. -/
def setCert (s : PoolSlot) (cert : Certificate) : PoolSlot :=
  match cert.vote.kind with
  | .notarize => { s with notarCert := some cert, notarSaving := false }
  | .finalize => { s with finalCert := some cert, finalSaving := false }
  | .skip => { s with skipCert := some cert, skipSaving := false }

/-- Whether the slot still lacks a certificate of the vote's kind. -/
def needs (s : PoolSlot) (v : Vote) : Bool :=
  (s.certByKind v.kind).isNone && !s.savingByKind v.kind

def willBe (s : PoolSlot) (k : VoteKind) : Bool :=
  (s.certByKind k).isSome || s.savingByKind k

/-- The candidate this slot is notarized for, by either certificate. -/
def notarizedBlock (s : PoolSlot) : Option CandidateID :=
  match s.notarCert with
  | some c => some c.vote.id
  | none => s.finalCert.map fun c => c.vote.id

/-- Keep the best known base to build this slot on. -/
def addAvailableBase (s : PoolSlot) (p : ParentID) : PoolSlot :=
  match s.availableBase with
  | none => { s with availableBase := some p }
  | some b => if p.compare b ≠ .lt then { s with availableBase := some p } else s

/-- The quorum weight behind a vote. -/
def weightOf (s : PoolSlot) (v : Vote) : UInt64 :=
  match v.kind with
  | .notarize => s.notarizeWeight v.id
  | .finalize => s.finalizeWeight v.id
  | .skip => s.skipWeight

def addWeight (s : PoolSlot) (v : Vote) (w : UInt64) : PoolSlot :=
  match v.kind with
  | .notarize =>
    { s with notarizeWeight := Function.update s.notarizeWeight v.id (s.notarizeWeight v.id + w) }
  | .finalize =>
    { s with finalizeWeight := Function.update s.finalizeWeight v.id (s.finalizeWeight v.id + w) }
  | .skip => { s with skipWeight := s.skipWeight + w }

end PoolSlot

structure Pool where
  slots : SlotMap PoolSlot
  now : UInt32
  firstNonAnnouncedWindow : UInt32
  lastFinalized : ParentID
  lastFinalCert : Option Certificate
  /-- Ends of the runs of skipped slots, ascending. -/
  skipRuns : List UInt32

/-! ## Voter -/

structure VoterSlot where
  pending : Option Candidate := none
  votedNotar : Option CandidateID := none
  notarCert : Option CandidateID := none
  votedSkip : Bool := false
  votedFinal : Bool := false
  storeInFlight : Bool := false
  stored : Bool := false
  validationInFlight : Bool := false
  validated : Bool := false

instance : Inhabited VoterSlot := ⟨{}⟩

structure Voter where
  slots : SlotMap VoterSlot
  timeoutBase : Time
  timeoutSlot : UInt32
  alarmAt : Time
  alarmArmed : Bool
  firstBlockTimeout : Time
  previousWindowHadSkip : Bool
  currentWindow : UInt32

/-! ## Messages, notifications and outside calls -/

/-- A protocol message as the TL decoder hands it over. -/
inductive Message where
  | vote (v : Vote) (sig : Signature)
  | certificate (cert : Certificate)
  | malformed
  deriving DecidableEq, Repr

/-- Serialized evidence, by what it decodes to. -/
inductive Proof where
  | vote (sv : SignedVote)
  | certificate (cert : Certificate)
  | hashData (h : HashData)
  deriving DecidableEq, Repr

inductive Misbehavior where
  | conflictingVotes (proof1 proof2 : Proof)
  | conflictingCandidateAndCertificate (proof1 : Proof) (proof2 : Option Proof)
  deriving DecidableEq, Repr

def Proven.proofBytes (p : Proven) (idx : Nat) : Proof :=
  match p.cert with
  | some cert => .certificate cert
  | none => .vote ⟨idx, p.vote, p.sig⟩

def ConflictEvidence.misbehavior (ev : ConflictEvidence) (idx : Nat) : Misbehavior :=
  .conflictingVotes (ev.a.proofBytes idx) (ev.b.proofBytes idx)

inductive FatalError where
  | voteJournal (v : Vote)
  | signing (v : Vote)
  | conflictingVotes (v : Vote)
  | certificateJournal
  | duplicateCertificate (kind : VoteKind) (slot : UInt32)
  | finalizeOverSkip (slot : UInt32)
  | finalizeOverNotarize (slot : UInt32)
  | noRunEnd
  | presentBelowHorizon (now : UInt32)
  | noAvailableBase (slot : UInt32)
  | poolStateJournal
  | candidateStore (id : CandidateID)
  deriving DecidableEq, Repr

structure Window where
  base : ParentID
  observedSlot : UInt32
  startSlot : UInt32
  endSlot : UInt32
  leader : UInt32
  localLeader : Bool
  observedAt : Time
  firstBlockTimeout : Time

/-- The resolution of a parent wait. `internalError` comes with a fatal error. -/
inductive ParentWaitOutcome where
  | ok
  | misbehavior (m : Misbehavior)
  | slotFinalized
  | internalError

/-- Closures queued until the current transition completes. -/
inductive Deferred where
  | onFatal (err : FatalError)
  | onMisbehavior (idx : Nat) (m : Misbehavior)
  | onParentWaitDone (c : Candidate) (out : ParentWaitOutcome)
  | onNotarized (id : CandidateID) (cert : Certificate)
  | voterNotarizationObserved (id : CandidateID)
  | onFinalized (id : CandidateID) (cert : Certificate)
  | voterFinalizationObserved (id : CandidateID)
  | handleWindow (w : Window)
  | storeCandidate (c : Candidate)
  | validateCandidate (c : Candidate)

/-- What the engine did that can be seen from outside, and the milestones the run properties
speak about. A settled parent wait carries the pool it was decided on. -/
inductive Event where
  | sign (v : Vote)
  | broadcastToAll (m : Message)
  | broadcastToValidators (m : Message)
  | broadcastToRandom (m : Message)
  | cast (v : Vote)
  | applied (v : Vote)
  | certStored (cert : Certificate)
  | submitted (c : Candidate)
  | storeCandidate (c : Candidate)
  | stored (id : CandidateID)
  | parentSettled (c : Candidate) (pool : Pool)
  | validateCandidate (c : Candidate)
  | validated (id : CandidateID)
  | handleWindow (w : Window)
  | onNotarized (id : CandidateID) (cert : Certificate)
  | onFinalized (id : CandidateID) (cert : Certificate)
  | onMisbehavior (idx : Nat) (m : Misbehavior)
  | onFatal (err : FatalError)

/-! ## Journal -/

/-- A save that is not `durable` is in flight or failed; either may survive a crash. -/
structure VoteRecord where
  vote : Vote
  durable : Bool
  deriving DecidableEq, Repr

structure CertRecord where
  cert : Certificate
  durable : Bool
  deriving DecidableEq, Repr

/-- An unanswered `SaveCertificate`; a duplicate of a known record is answered with
`ErrAlreadySaved`. -/
structure CertSave where
  cert : Certificate
  duplicate : Bool
  deriving DecidableEq, Repr

/-- The session journal: own votes in save order, certificates, and the saves whose
completion has not been delivered. -/
structure Journal where
  votes : List VoteRecord
  certs : List CertRecord
  voteSaves : List Vote
  certSaves : List CertSave
  windowSaves : Nat

namespace Journal

def hasVote (j : Journal) (v : Vote) : Bool := j.votes.any fun r => decide (r.vote = v)

def hasCert (j : Journal) (c : Certificate) : Bool := j.certs.any fun r => decide (r.cert = c)

/-- `SaveOurVote`. A duplicate completes with `ErrAlreadySaved`, which the engine ignores. -/
def saveOurVote (j : Journal) (v : Vote) : Journal :=
  if j.hasVote v then j
  else { j with votes := j.votes ++ [⟨v, false⟩], voteSaves := j.voteSaves ++ [v] }

def saveCertificate (j : Journal) (c : Certificate) : Journal :=
  if j.hasCert c then { j with certSaves := j.certSaves ++ [⟨c, true⟩] }
  else { j with certs := j.certs ++ [⟨c, false⟩], certSaves := j.certSaves ++ [⟨c, false⟩] }

def saveFirstNonAnnouncedWindow (j : Journal) : Journal :=
  { j with windowSaves := j.windowSaves + 1 }

/-- A vote record crosses its persistence boundary. -/
def voteDurable (j : Journal) (v : Vote) : Journal :=
  { j with votes := j.votes.map fun r => if r.vote = v then { r with durable := true } else r }

def certDurable (j : Journal) (c : Certificate) : Journal :=
  { j with certs := j.certs.map fun r => if r.cert = c then { r with durable := true } else r }

end Journal

/-! ## Engine -/

/-- The standstill re-broadcast in progress. Its pacing uses floating point and is an input
of the model: how many messages the egress budget lets out. -/
structure Drain where
  msgs : List Message
  idx : Nat
  finalCertAtStart : Option Certificate

/-- An inbound vote that passed the cheap gates and waits for its signature check. -/
structure PendingVote where
  src : PeerID
  idx : Nat
  vote : Vote
  sig : Signature

structure Engine where
  params : Params
  clock : Time
  started : Bool
  stopped : Bool
  fatalErr : Option FatalError
  /-- The process died of a nil dereference. -/
  panicked : Bool
  pool : Pool
  parentWaits : List Candidate
  suppressCertBroadcast : Bool
  seenBroadcasts : UInt32 → Option Hash
  bans : PeerID → Option Time
  standstillAt : Option Time
  drain : Option Drain
  voter : Voter
  pending : List Deferred
  pendingVerify : List PendingVote
  /-- Candidate-service callbacks handed out and not used yet. -/
  storeCallbacks : List CandidateID
  validateCallbacks : List CandidateID
  journal : Journal
  /-- Newest first. -/
  trace : List Event

namespace Engine

def failed (e : Engine) : Bool := e.fatalErr.isSome || e.stopped || e.panicked

def enqueue (e : Engine) (d : Deferred) : Engine := { e with pending := e.pending ++ [d] }

def emit (e : Engine) (ev : Event) : Engine := { e with trace := ev :: e.trace }

/-- Fail closed: drop everything queued, deliver only the fatal signal. -/
def fatal (e : Engine) (err : FatalError) : Engine :=
  if e.failed then e
  else { e with fatalErr := some err, pending := [.onFatal err], drain := none }

/-- A nil dereference ends the process. -/
def panic (e : Engine) : Engine := { e with panicked := true, pending := [], drain := none }

def setSlot (e : Engine) (slot : UInt32) (s : PoolSlot) : Engine :=
  { e with pool := { e.pool with slots := e.pool.slots.set slot s } }

def setVoterSlot (e : Engine) (slot : UInt32) (s : VoterSlot) : Engine :=
  { e with voter := { e.voter with slots := e.voter.slots.set slot s } }

def reportMisbehavior (e : Engine) (idx : Nat) (m : Misbehavior) : Engine :=
  e.enqueue (.onMisbehavior idx m)

end Engine

end Gton.Simplex
