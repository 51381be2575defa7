import Gton.Simplex.State

/-!
# The pool: certificates, skip runs, parent waits and the present slot

Each definition follows the method of the same name. `cfg.localIndex` says whether there is
a voter.
-/

namespace Gton.Simplex

def Config.hasVoter (cfg : Config) : Bool := cfg.localIndex.isSome

/-! ## Skip runs and bases -/

/-- The result of `nextNonSkippedSlotAfter`: a slot, a missing run end, or the dereference
of a pruned slot. -/
inductive NextSlot where
  | slot (s : UInt32)
  | noRunEnd
  | nilSlot

/-- The first slot after `i` without a skip certificate; `i + 1` is `uint32` arithmetic. -/
def Pool.nextNonSkippedSlotAfter (p : Pool) (i : UInt32) : NextSlot :=
  match p.slots.get? (i + 1) with
  | none => .nilSlot
  | some s =>
    match s.skipCert with
    | none => .slot (i + 1)
    | some _ =>
      match lowerBound p.skipRuns (i + 1) with
      | none => .noRunEnd
      | some e => .slot e

def Engine.addAvailableBase (e : Engine) (slot : UInt32) (p : ParentID) : Engine :=
  { e with pool := { e.pool with
      slots := e.pool.slots.modify slot fun s => s.addAvailableBase p } }

/-! ## The present slot -/

/-- Move past settled slots. The loop has no bound in the source; it goes round only when
all 2^32 slots are settled. `false` means the present slot is below the horizon. -/
def Pool.presentLoop (p : Pool) : Nat → UInt32 → UInt32 × Bool
  | 0, now => (now, true)
  | n + 1, now =>
    match p.slots.get? now with
    | none => (now, false)
    | some s =>
      if s.notarCert.isSome || s.skipCert.isSome then p.presentLoop n (now + 1) else (now, true)

/-- Voting timers of a newly entered leader window. -/
def Engine.voterWindowObserved (cfg : Config) (e : Engine) (startSlot : UInt32) : Engine :=
  let v := e.voter
  let timeout :=
    if v.previousWindowHadSkip then e.params.scaleTimeout v.firstBlockTimeout
    else e.params.firstBlockTimeout
  let v := { v with
    currentWindow := startSlot / cfg.spw
    firstBlockTimeout := timeout
    previousWindowHadSkip :=
      if startSlot % cfg.spw = 0 then false else v.previousWindowHadSkip }
  let v :=
    if v.timeoutSlot ≤ startSlot then
      { v with
        timeoutSlot := startSlot + 1
        timeoutBase := e.clock + timeout
        alarmAt := e.clock + timeout + e.params.targetRate
        alarmArmed := true }
    else v
  { e with voter := v }

def Engine.windowObserved (cfg : Config) (e : Engine) (startSlot : UInt32) (base : ParentID) :
    Engine :=
  let e := if cfg.hasVoter then e.voterWindowObserved cfg startSlot else e
  let timeout := if cfg.hasVoter then e.voter.firstBlockTimeout else e.params.firstBlockTimeout
  let windowStart := startSlot - startSlot % cfg.spw
  let leader := cfg.expectedLeader windowStart
  e.enqueue (.handleWindow
    { base, observedSlot := startSlot, startSlot := windowStart, endSlot := windowStart + cfg.spw,
      leader, localLeader := cfg.localIndex = some leader.toNat, observedAt := e.clock,
      firstBlockTimeout := timeout })

/-- The base announced with the window that starts at `now`. -/
def Pool.baseAt (p : Pool) (now : UInt32) : Option ParentID :=
  if now = 0 then some genesis else (p.slots.get? now).bind PoolSlot.availableBase

/-- Announce the window of the present slot unless it was announced before. -/
def Engine.announceWindow (cfg : Config) (e : Engine) : Engine :=
  let window := e.pool.now / cfg.spw
  if e.pool.firstNonAnnouncedWindow > window then e
  else
    let e := { e with pool := { e.pool with firstNonAnnouncedWindow := window + 1 } }
    match e.pool.baseAt e.pool.now with
    | none => e.fatal (.noAvailableBase e.pool.now)
    | some base =>
      let e := e.windowObserved cfg e.pool.now base
      { e with journal := e.journal.saveFirstNonAnnouncedWindow }

/-- Move the present slot past settled slots and announce newly entered windows. -/
def Engine.advancePresent (cfg : Config) (e : Engine) : Engine :=
  if !e.started || e.failed then e
  else
    let r := e.pool.presentLoop 4294967296 e.pool.now
    let e := { e with pool := { e.pool with now := r.1 } }
    if r.2 then e.announceWindow cfg else e.fatal (.presentBelowHorizon r.1)

/-! ## Parent waits -/

inductive ParentWait where
  | waiting
  | done (out : ParentWaitOutcome)
  | noRunEnd

def conflictingCandidateAndCert (c : Candidate) (cert : Option Certificate) : Misbehavior :=
  .conflictingCandidateAndCertificate (.hashData c.hashData) (cert.map .certificate)

/-- The slot after a parent: 0 for genesis. -/
def ParentID.nextSlot (p : ParentID) : UInt32 := if p.defined then p.id.slot + 1 else 0

/-- The skip part of `evaluateParentWait`: every slot from `next` up to the candidate's must
be skipped, decided through the run end. -/
def Pool.evaluateSkips (p : Pool) (next slot : UInt32) : ParentWait :=
  if next = slot then .done .ok
  else
    match (p.slots.get? next).bind PoolSlot.skipCert with
    | none => .waiting
    | some _ =>
      match lowerBound p.skipRuns next with
      | none => .noRunEnd
      | some runEnd => if slot ≤ runEnd then .done .ok else .waiting

/-- Whether a pending parent request can be resolved. -/
def Pool.evaluateParentWait (p : Pool) (c : Candidate) : ParentWait :=
  let next := c.parent.nextSlot
  if c.id.slot < p.slots.firstNonFinalized then .done .slotFinalized
  else if next < p.slots.firstNonFinalized then
    .done (.misbehavior (conflictingCandidateAndCert c p.lastFinalCert))
  else
    let slot := (p.slots.get? c.id.slot).getD default
    if slot.notarizedBlock ≠ none ∧ slot.notarizedBlock ≠ some c.id then
      .done (.misbehavior (conflictingCandidateAndCert c slot.notarCert))
    else if next = p.slots.firstNonFinalized then
      if p.lastFinalized ≠ c.parent then
        .done (.misbehavior (conflictingCandidateAndCert c p.lastFinalCert))
      else p.evaluateSkips next c.id.slot
    else
      let parentSlot := (p.slots.get? c.parent.id.slot).getD default
      match parentSlot.notarCert with
      | none => .waiting
      | some cert =>
        if cert.vote.id ≠ c.parent.id then
          .done (.misbehavior (conflictingCandidateAndCert c (some cert)))
        else p.evaluateSkips next c.id.slot

/-- Queue the continuation of a decided parent wait. -/
def Engine.parentWaitDecided (e : Engine) (c : Candidate) : ParentWait → Engine
  | .waiting => e
  | .noRunEnd => (e.fatal .noRunEnd).enqueue (.onParentWaitDone c .internalError)
  | .done .ok => (e.emit (.parentSettled c e.pool)).enqueue (.onParentWaitDone c .ok)
  | .done out => e.enqueue (.onParentWaitDone c out)

def Engine.registerParentWait (e : Engine) (c : Candidate) : Engine :=
  match e.pool.evaluateParentWait c with
  | .waiting => { e with parentWaits := e.parentWaits ++ [c] }
  | r => e.parentWaitDecided c r

/-- Remove entry `i` by moving the last one into its place. -/
def swapRemove (l : List Candidate) (i : Nat) : List Candidate :=
  match l.getLast? with
  | none => l
  | some last => (l.set i last).dropLast

def Engine.resolveLoop : Nat → Nat → Engine → Engine
  | 0, _, e => e
  | n + 1, i, e =>
    match e.parentWaits[i]? with
    | none => e
    | some c =>
      match e.pool.evaluateParentWait c with
      | .waiting => Engine.resolveLoop n (i + 1) e
      | r =>
        let e := { e with parentWaits := swapRemove e.parentWaits i }
        Engine.resolveLoop n i (e.parentWaitDecided c r)

/-- Every round either skips a waiting candidate or removes a decided one, so the number of
waits bounds the rounds. -/
def Engine.resolveParentWaits (e : Engine) : Engine :=
  e.resolveLoop e.parentWaits.length 0

/-! ## Certificate transitions -/

def Engine.onNotarCertificate (cfg : Config) (e : Engine) (cert : Certificate) : Engine :=
  let id := cert.vote.id
  let e := e.enqueue (.onNotarized id cert)
  let e := if cfg.hasVoter then e.enqueue (.voterNotarizationObserved id) else e
  match e.pool.nextNonSkippedSlotAfter id.slot with
  | .nilSlot => e.panic
  | .noRunEnd => e.fatal .noRunEnd
  | .slot next => (e.addAvailableBase next (parent id)).advancePresent cfg

def Engine.onSkipCertificate (cfg : Config) (e : Engine) (slot : PoolSlot) (cert : Certificate) :
    Engine :=
  let i := cert.vote.slot
  match e.pool.nextNonSkippedSlotAfter i with
  | .nilSlot => e.panic
  | .noRunEnd => e.fatal .noRunEnd
  | .slot next =>
    let runs := eraseSorted e.pool.skipRuns i
    let runs := if next = i + 1 then insertSorted (i + 1) runs else runs
    let e := { e with pool := { e.pool with skipRuns := runs } }
    let e :=
      match slot.availableBase with
      | some base => e.addAvailableBase next base
      | none => e
    e.advancePresent cfg

/-- Make `cert` the last finalization and prune up to its slot. -/
def Engine.recordFinal (e : Engine) (cert : Certificate) : Engine :=
  { e with pool := { e.pool with
      lastFinalized := parent cert.vote.id
      lastFinalCert := some cert
      slots := e.pool.slots.notifyFinalized cert.vote.slot } }

/-- Drop what the finalization of `slot` makes obsolete outside the slot map. -/
def Engine.sweepFinal (e : Engine) (slot : UInt32) : Engine :=
  { e with
    pool := { e.pool with skipRuns := eraseUpTo e.pool.skipRuns slot }
    seenBroadcasts := fun s =>
      if s < e.pool.slots.firstNonFinalized then none else e.seenBroadcasts s
    standstillAt :=
      if e.suppressCertBroadcast then e.standstillAt
      else some (e.clock + e.params.standstillTimeout)
    drain := none }

/-- The part of `onFinalCertificate` after the base of the next slot is known. -/
def Engine.finalizeSlot (cfg : Config) (e : Engine) (cert : Certificate) : Engine :=
  let id := cert.vote.id
  let e := (e.recordFinal cert).enqueue (.onFinalized id cert)
  let e := if cfg.hasVoter then e.enqueue (.voterFinalizationObserved id) else e
  let e :=
    if e.pool.now ≤ id.slot then
      { e with pool := { e.pool with now := id.slot + 1 } }.advancePresent cfg
    else e
  e.sweepFinal id.slot

def Engine.onFinalCertificate (cfg : Config) (e : Engine) (slot : PoolSlot) (cert : Certificate) :
    Engine :=
  let id := cert.vote.id
  if slot.skipCert.isSome then e.fatal (.finalizeOverSkip id.slot)
  else if slot.notarizedBlock ≠ none ∧ slot.notarizedBlock ≠ some id then
    e.fatal (.finalizeOverNotarize id.slot)
  else if slot.notarCert.isSome then e.finalizeSlot cfg cert
  else
    match e.pool.nextNonSkippedSlotAfter id.slot with
    | .nilSlot => e.panic
    | .noRunEnd => e.fatal .noRunEnd
    | .slot next => (e.addAvailableBase next (parent id)).finalizeSlot cfg cert

/-- The typed transition of an accepted certificate; `slot` already holds it. -/
def Engine.certTransition (cfg : Config) (e : Engine) (slot : PoolSlot) (cert : Certificate) :
    Engine :=
  match cert.vote.kind with
  | .notarize => e.onNotarCertificate cfg cert
  | .skip => e.onSkipCertificate cfg slot cert
  | .finalize => e.onFinalCertificate cfg slot cert

/-- Record an accepted certificate in its slot, gossip it and run the typed transition. -/
def Engine.storeSavedCertificate (cfg : Config) (e : Engine) (slot : PoolSlot)
    (cert : Certificate) : Engine :=
  if (slot.certByKind cert.vote.kind).isSome then
    e.fatal (.duplicateCertificate cert.vote.kind cert.vote.slot)
  else
    let slot := slot.setCert cert
    let e := if e.suppressCertBroadcast then e else e.emit (.broadcastToRandom (.certificate cert))
    let e := (e.setSlot cert.vote.slot slot).emit (.certStored cert)
    let e := e.certTransition cfg slot cert
    if e.failed then e else e.resolveParentWaits

/-! ## Certificate persistence -/

/-- Start persisting a fresh certificate; the saving flag makes it single-flight. -/
def Engine.handleCertificate (e : Engine) (cert : Certificate) : Engine :=
  match e.pool.slots.get? cert.vote.slot with
  | none => e
  | some slot =>
    if slot.needs cert.vote then
      let e := e.setSlot cert.vote.slot (slot.setSaving cert.vote.kind true)
      { e with journal := e.journal.saveCertificate cert }
    else e

/-- The individual votes a certificate proves, entered into the voting records. -/
def Engine.extractVotes (e : Engine) (slot : PoolSlot) (cert : Certificate) :
    List VoteSignature → Engine × PoolSlot
  | [] => (e, slot)
  | s :: rest =>
    let i := s.validatorIndex
    let r := (slot.votes i).add ⟨cert.vote, s.signature, some cert⟩
    let slot := { slot with votes := Function.update slot.votes i r.1 }
    match r.2.2 with
    | some ev => (e.reportMisbehavior i (ev.misbehavior i)).extractVotes slot cert rest
    | none => e.extractVotes slot cert rest

inductive SaveResult where
  | ok | alreadySaved | error
  deriving DecidableEq, Repr

/-- Resume certificate application once the write is answered. The slot is resolved again: a
finalization may have pruned it meanwhile. -/
def Engine.finishCertificateSave (cfg : Config) (e : Engine) (cert : Certificate)
    (res : SaveResult) : Engine :=
  if res = .error then e.fatal .certificateJournal
  else
    match e.pool.slots.get? cert.vote.slot with
    | none => e
    | some slot =>
      let r := e.extractVotes slot cert cert.signatures
      (r.1.setSlot cert.vote.slot r.2).storeSavedCertificate cfg r.2 cert

/-! ## Vote application -/

/-- The direct signature of a record, when it is for exactly this vote. -/
def ValidatorVotes.signatureOn (vv : ValidatorVotes) (v : Vote) : Option Signature :=
  match vv.byKind v.kind with
  | some p => if !p.fromCert ∧ p.vote = v then some p.sig else none
  | none => none

/-- The directly signed votes of the slot that match `v` exactly. -/
def Config.buildCertificate (cfg : Config) (votes : Nat → ValidatorVotes) (v : Vote) :
    Certificate :=
  { vote := v
    signatures := (List.range cfg.validators.length).filterMap fun i =>
      ((votes i).signatureOn v).map fun sig => ⟨i, sig⟩ }

/-- Accumulate quorum weight and build a certificate when the threshold is crossed. -/
def Engine.onVoteApplied (cfg : Config) (e : Engine) (idx : Nat) (v : Vote) (slot : PoolSlot) :
    Engine :=
  let slot := slot.addWeight v (cfg.weight idx)
  let e := e.setSlot v.slot slot
  if slot.weightOf v ≥ cfg.threshold ∧ !slot.willBe v.kind then
    e.handleCertificate (cfg.buildCertificate slot.votes v)
  else e

/-- Add a signed vote to the pool; the flag says whether it was newly applied. An own vote
that enters the pool leaves a milestone: nothing sends it, alone or in a certificate, before. -/
def Engine.applyVote (cfg : Config) (e : Engine) (idx : Nat) (v : Vote) (sig : Signature)
    (tolerateConflicts : Bool) : Engine × Bool :=
  match e.pool.slots.get? v.slot with
  | none => (e, false)
  | some slot =>
    let r := (slot.votes idx).add ⟨v, sig, none⟩
    match r.2.2 with
    | some ev =>
      if cfg.localIndex = some idx ∧ !tolerateConflicts then
        (e.fatal (.conflictingVotes v), false)
      else (e.reportMisbehavior idx (ev.misbehavior idx), false)
    | none =>
      if r.2.1 then
        let slot := { slot with votes := Function.update slot.votes idx r.1 }
        let e := if cfg.localIndex = some idx then e.emit (.applied v) else e
        (e.onVoteApplied cfg idx v slot, true)
      else (e, false)

/-! ## Standstill -/

/-- Everything a lagging peer may need: the last finalization, the certificates of every
tracked slot and our own votes no certificate covers yet. -/
def Engine.slotMessages (cfg : Config) (s : PoolSlot) : List Message :=
  let certs := [s.notarCert, s.skipCert, s.finalCert].filterMap fun c => c.map Message.certificate
  match cfg.localIndex with
  | none => certs
  | some idx =>
    certs ++ [VoteKind.notarize, .skip, .finalize].filterMap fun k =>
      match (s.votes idx).byKind k with
      | some p => if !p.fromCert ∧ (s.certByKind k).isNone then some (.vote p.vote p.sig) else none
      | none => none

def Engine.buildStandstillMessages (cfg : Config) (e : Engine) : List Message :=
  (e.pool.lastFinalCert.map Message.certificate).toList ++
    (slotRange e.pool.slots.interval.1 e.pool.slots.interval.2).flatMap fun i =>
      match e.pool.slots.peek i with
      | none => []
      | some s => Engine.slotMessages cfg s

/-- Send up to `sends` queued messages. -/
def Engine.drainSends : Nat → Drain → Engine → Engine
  | 0, d, e => { e with drain := if d.idx < d.msgs.length then some d else none }
  | n + 1, d, e =>
    match d.msgs[d.idx]? with
    | none => { e with drain := none }
    | some m => Engine.drainSends n { d with idx := d.idx + 1 } (e.emit (.broadcastToValidators m))

def Engine.stepDrain (e : Engine) (sends : Nat) : Engine :=
  match e.drain with
  | none => e
  | some d =>
    if e.pool.lastFinalCert ≠ d.finalCertAtStart then { e with drain := none }
    else Engine.drainSends sends d e

/-- Re-arm the standstill timer and drop expired bans. -/
def Engine.rearmStandstill (e : Engine) : Engine :=
  { e with
    standstillAt := some (e.clock + e.params.standstillTimeout)
    bans := fun p =>
      match e.bans p with
      | some until_ => if e.clock > until_ then none else some until_
      | none => none }

def Engine.fireStandstill (cfg : Config) (e : Engine) (sends : Nat) : Engine :=
  let e := e.rearmStandstill
  if !cfg.hasVoter then e
  else
    match e.drain with
    | some _ => e
    | none =>
      let d : Drain := ⟨e.buildStandstillMessages cfg, 0, e.pool.lastFinalCert⟩
      { e with drain := some d }.stepDrain sends

end Gton.Simplex
