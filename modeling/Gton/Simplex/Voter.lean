import Gton.Simplex.Pool

/-!
# The voting policy

When to notarize, finalize and skip, and the candidate pipeline in front of the notarize
vote. Own votes go journal, sign, apply, send, in this order.
-/

namespace Gton.Simplex.Engine

/-! ## Casting -/

/-- Sign, apply and broadcast an own vote whose intent is durable. -/
def finishVoteCast (cfg : Config) (e : Engine) (v : Vote) (replay : Bool) : Engine :=
  match cfg.localIndex with
  | none => e
  | some idx =>
    let n := (e.trace.filter fun ev => match ev with | .sign _ => true | _ => false).length
    let e := e.emit (.sign v)
    match cfg.sign n (cfg.votePayload v) with
    | none => e.fatal (.signing v)
    | some sig =>
      let r := e.applyVote cfg idx v sig replay
      if r.2 ∧ !replay then r.1.emit (.broadcastToAll (.vote v sig)) else r.1

/-- Cast one own vote: a replayed intent is durable already, a fresh one is journalled first. -/
def castVote (cfg : Config) (e : Engine) (v : Vote) (replay : Bool) : Engine :=
  if e.failed || !cfg.hasVoter then e
  else if replay then e.finishVoteCast cfg v true
  else { e with journal := e.journal.saveOurVote v }.emit (.cast v)

/-- Cast the finalize vote when our notarize vote matches the observed certificate and no
skip was cast for the slot. -/
def tryVoteFinal (cfg : Config) (e : Engine) (s : UInt32) (slot : VoterSlot) : Engine :=
  match slot.votedNotar with
  | none => e
  | some id =>
    if !slot.votedSkip ∧ !slot.votedFinal ∧ slot.notarCert = some id then
      (e.castVote cfg (finalizeVote id) false).setVoterSlot s { slot with votedFinal := true }
    else e

/-- Cast the notarize vote once the candidate is both validated and durably stored. -/
def maybeVoteNotar (cfg : Config) (e : Engine) (id : CandidateID) (slot : VoterSlot) : Engine :=
  if !slot.validated || !slot.stored || slot.votedNotar.isSome then e
  else
    let slot := { slot with votedNotar := some id }
    ((e.setVoterSlot id.slot slot).castVote cfg (notarizeVote id) false).tryVoteFinal
    cfg id.slot slot

/-! ## Notarization, finalization and the alarm -/

def voterNotarizationObserved (cfg : Config) (e : Engine) (id : CandidateID) : Engine :=
  match e.voter.slots.get? id.slot with
  | none => e
  | some slot =>
    let v := e.voter
    let v :=
      if v.timeoutSlot ≤ id.slot + 1 then
        let timeoutSlot := if (id.slot + 1) % cfg.spw = 0 then id.slot + 1 else id.slot + 2
        let offset := timeoutSlot - v.currentWindow * cfg.spw
        { v with
          timeoutSlot
          alarmAt := v.timeoutBase + offset.toNat * e.params.targetRate
          alarmArmed := true }
      else v
    let slot := { slot with notarCert := some id }
    ({ e with voter := v }.setVoterSlot id.slot slot).tryVoteFinal cfg id.slot slot

def voterFinalizationObserved (e : Engine) (id : CandidateID) : Engine :=
  { e with voter := { e.voter with slots := e.voter.slots.notifyFinalized id.slot } }

/-- Skip one slot of an overdue window unless it is finalized or we voted to finalize it. -/
def alarmSkip (cfg : Config) (e : Engine) (i : UInt32) : Engine :=
  match e.voter.slots.get? i with
  | none => e
  | some slot =>
    if slot.votedFinal then e
    else
      let e := (e.castVote cfg (skipVote i) false).setVoterSlot i { slot with votedSkip := true }
      { e with voter := { e.voter with previousWindowHadSkip := true } }

/-- Skip every slot from the overdue one to the end of its leader window. -/
def fireVoterAlarm (cfg : Config) (e : Engine) : Engine :=
  let rangeStart := e.voter.timeoutSlot - 1
  let windowEnd := rangeStart - rangeStart % cfg.spw + cfg.spw
  let e := { e with voter := { e.voter with alarmArmed := false } }
  let e := (slotRange rangeStart windowEnd).foldl (alarmSkip cfg) e
  { e with voter := { e.voter with timeoutSlot := windowEnd } }

/-! ## Recovery -/

/-- Restore the voting flags of one journaled vote; a record that violates the local
invariants is dropped. -/
def bootstrapVote (m : SlotMap VoterSlot) (v : Vote) : SlotMap VoterSlot :=
  match m.get? v.slot with
  | none => m
  | some slot =>
    match v.kind with
    | .notarize =>
      if slot.votedNotar ≠ none ∧ slot.votedNotar ≠ some v.id then m
      else m.set v.slot { slot with votedNotar := some v.id }
    | .finalize =>
      if slot.votedSkip ∨ (slot.votedNotar ≠ none ∧ slot.votedNotar ≠ some v.id) then m
      else m.set v.slot { slot with votedFinal := true }
    | .skip =>
      if slot.votedFinal then m else m.set v.slot { slot with votedSkip := true }

/-- Reserve the skip of one slot of the interrupted window. -/
def reserveSkip (m : SlotMap VoterSlot) (i : UInt32) : SlotMap VoterSlot :=
  match m.get? i with
  | none => m
  | some slot => if slot.votedFinal then m else m.set i { slot with votedSkip := true }

/-- The slots of the last announced leader window; both bounds wrap at 2^32. -/
def lastWindowSlots (cfg : Config) (firstNonAnnouncedWindow : UInt32) : List UInt32 :=
  if firstNonAnnouncedWindow = 0 then []
  else
    slotRange ((firstNonAnnouncedWindow - 1) * cfg.spw) (firstNonAnnouncedWindow * cfg.spw)

def bootstrapVoter (cfg : Config) (e : Engine) (votes : List Vote) : Engine :=
  let slots := votes.foldl bootstrapVote e.voter.slots
  let slots := (lastWindowSlots cfg e.pool.firstNonAnnouncedWindow).foldl reserveSkip slots
  { e with voter := { e.voter with slots } }

def startupSkip (cfg : Config) (e : Engine) (i : UInt32) : Engine :=
  match e.voter.slots.get? i with
  | none => e
  | some slot => if slot.votedFinal then e else e.castVote cfg (skipVote i) false

/-- Re-cast skip votes for the non-finalized slots of the last announced window. -/
def castStartupWindowSkips (cfg : Config) (e : Engine) : Engine :=
  (lastWindowSlots cfg e.pool.firstNonAnnouncedWindow).foldl (startupSkip cfg) e

/-! ## The candidate pipeline -/

def acceptCandidate (cfg : Config) (e : Engine) (c : Candidate) : Engine :=
  let firstTooNew := (e.voter.currentWindow + e.params.maxLeaderWindowDesync + 1) * cfg.spw
  if firstTooNew ≤ c.id.slot then e
  else
    match e.voter.slots.get? c.id.slot with
    | none => e
    | some slot =>
      if slot.votedNotar.isSome || slot.pending.isSome then e
      else
        let slot := { slot with pending := some c, storeInFlight := true }
        let e := (e.setVoterSlot c.id.slot slot).emit (.submitted c)
        (e.enqueue (.storeCandidate c)).registerParentWait c

/-- Continue the pipeline once the parent chain of the pending candidate is settled. -/
def onParentWaitDone (cfg : Config) (e : Engine) (c : Candidate) (out : ParentWaitOutcome) :
    Engine :=
  if !cfg.hasVoter then e
  else
    match out with
    | .misbehavior m => e.reportMisbehavior c.leader.toNat m
    | .slotFinalized => e
    | .internalError => e
    | .ok =>
      match e.voter.slots.get? c.id.slot with
      | none => e
      | some slot =>
        if slot.pending.map Candidate.id ≠ some c.id ∨ slot.votedNotar.isSome ∨
            slot.validationInFlight then e
        else
          (e.setVoterSlot c.id.slot { slot with validationInFlight := true }).enqueue
            (.validateCandidate c)

/-- A nil verdict accepts; rejection and abstention only differ in the counters. -/
def completeValidation (cfg : Config) (e : Engine) (id : CandidateID) (accepted : Bool) : Engine :=
  if !cfg.hasVoter then e
  else
    match e.voter.slots.get? id.slot with
    | none => e
    | some slot =>
      if slot.pending.map Candidate.id ≠ some id ∨ !slot.validationInFlight then e
      else
        let slot := { slot with validationInFlight := false }
        if accepted then
          let slot := { slot with validated := true }
          ((e.setVoterSlot id.slot slot).emit (.validated id)).maybeVoteNotar cfg id slot
        else e.setVoterSlot id.slot slot

def completeStore (cfg : Config) (e : Engine) (id : CandidateID) (ok : Bool) : Engine :=
  if !cfg.hasVoter then e
  else
    match e.voter.slots.get? id.slot with
    | none => e
    | some slot =>
      if slot.pending.map Candidate.id ≠ some id ∨ !slot.storeInFlight then e
      else
        let slot := { slot with storeInFlight := false }
        if ok then
          let slot := { slot with stored := true }
          ((e.setVoterSlot id.slot slot).emit (.stored id)).maybeVoteNotar cfg id slot
        else (e.setVoterSlot id.slot slot).fatal (.candidateStore id)

/-! ## Queued notifications -/

/-- Run one queued closure. Hooks only leave an event; the two candidate services also hand
out a callback. -/
def runDeferred (cfg : Config) (e : Engine) : Deferred → Engine
  | .onFatal err => e.emit (.onFatal err)
  | .onMisbehavior idx m => e.emit (.onMisbehavior idx m)
  | .onParentWaitDone c out => e.onParentWaitDone cfg c out
  | .onNotarized id cert => e.emit (.onNotarized id cert)
  | .voterNotarizationObserved id => e.voterNotarizationObserved cfg id
  | .onFinalized id cert => e.emit (.onFinalized id cert)
  | .voterFinalizationObserved id => e.voterFinalizationObserved id
  | .handleWindow w => e.emit (.handleWindow w)
  | .storeCandidate c =>
    { e with storeCallbacks := c.id :: e.storeCallbacks }.emit (.storeCandidate c)
  | .validateCandidate c =>
    { e with validateCallbacks := c.id :: e.validateCallbacks }.emit (.validateCandidate c)

def drainLoop (cfg : Config) : Nat → Engine → Engine
  | 0, e => e
  | n + 1, e =>
    match e.pending with
    | [] => e
    | d :: ds => drainLoop cfg n ({ e with pending := ds }.runDeferred cfg d)

/-- Only `onParentWaitDone` queues another closure, and that one queues none: twice the
length of the queue bounds the rounds. -/
def drainPending (cfg : Config) (e : Engine) : Engine :=
  e.drainLoop cfg (2 * e.pending.length)

end Gton.Simplex.Engine
