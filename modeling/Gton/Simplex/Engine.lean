import Gton.Simplex.Voter

/-!
# Recovery, inputs and runs of one engine

`Engine.start` is `NewEngine` followed by `Start`; `Engine.step` serves one input of the
loop. A crash forgets everything but the journal and the history of outside calls.
-/

namespace Gton.Simplex

/-- What the journal hands to a recovering engine. -/
structure BootstrapState where
  firstNonAnnouncedWindow : UInt32
  ourVotes : List Vote
  certificates : List Certificate

inductive StartError where
  | corruptCertificate (msg : String)
  | duplicateCertificate (kind : VoteKind) (slot : UInt32)
  | fatal (err : FatalError)
  | panicked
  deriving DecidableEq, Repr

namespace Engine

def journalOf (bs : BootstrapState) : Journal :=
  { votes := bs.ourVotes.map fun v => ⟨v, true⟩
    certs := bs.certificates.map fun c => ⟨c, true⟩
    voteSaves := [], certSaves := [], windowSaves := 0 }

/-- A fresh engine over the journal `bs` was read from, with the history of earlier runs. -/
def new (params : Params) (clock : Time) (bs : BootstrapState) (trace : List Event) : Engine :=
  { params, clock, started := false, stopped := false, fatalErr := none, panicked := false
    pool := { slots := .empty, now := 0, firstNonAnnouncedWindow := bs.firstNonAnnouncedWindow,
              lastFinalized := genesis, lastFinalCert := none, skipRuns := [] }
    parentWaits := [], suppressCertBroadcast := true, seenBroadcasts := fun _ => none
    bans := fun _ => none, standstillAt := none, drain := none
    voter := { slots := .empty, timeoutBase := 0, timeoutSlot := 0, alarmAt := 0,
               alarmArmed := false, firstBlockTimeout := params.firstBlockTimeout,
               previousWindowHadSkip := false, currentWindow := 0 }
    pending := [], pendingVerify := [], storeCallbacks := [], validateCallbacks := []
    journal := journalOf bs, trace }

/-- The error a transition left behind, if any. -/
def err? (e : Engine) : Option StartError :=
  if e.panicked then some .panicked else e.fatalErr.map .fatal

/-- Certificates first, without gossip. -/
def replayCertificates (cfg : Config) (e : Engine) : List Certificate → Engine × Option StartError
  | [] => (e, none)
  | cert :: rest =>
    match e.pool.slots.get? cert.vote.slot with
    | none => e.replayCertificates cfg rest
    | some slot =>
      if slot.needs cert.vote then
        let e := e.storeSavedCertificate cfg slot cert
        match e.err? with
        | some err => (e, some err)
        | none => e.replayCertificates cfg rest
      else (e, some (.duplicateCertificate cert.vote.kind cert.vote.slot))

/-- Re-sign and re-apply one own vote unless its slot is finalized. -/
def replayVote (cfg : Config) (e : Engine) (v : Vote) : Engine :=
  if v.slot < e.pool.slots.firstNonFinalized then e else e.castVote cfg v true

/-- The end of `Start`: reserve the interrupted window and begin the session. -/
def openSession (cfg : Config) (e : Engine) : Engine :=
  let e := if cfg.hasVoter then e.castStartupWindowSkips cfg else e
  let e := { e with started := true, standstillAt := some (e.clock + e.params.standstillTimeout) }
  (e.advancePresent cfg).drainPending cfg

/-- The part of `Start` after the certificates are replayed. -/
def startSession (cfg : Config) (e : Engine) (votes : List Vote) : Engine :=
  let e := { e with suppressCertBroadcast := false }.drainPending cfg
  (votes.foldl (replayVote cfg) e).openSession cfg

/-- Before the certificate replay: voting flags, and slot 0 builds on genesis. -/
def prepare (cfg : Config) (e : Engine) (votes : List Vote) : Engine :=
  let e := if cfg.hasVoter then e.bootstrapVoter cfg votes else e
  e.addAvailableBase 0 genesis

/-- `Start` on a fresh engine: the engine it leaves behind and the error it returns. -/
def start (cfg : Config) (params : Params) (clock : Time) (bs : BootstrapState)
    (trace : List Event) : Engine × Option StartError :=
  let e := new params clock bs trace
  match cfg.validateBootstrap bs.certificates with
  | .error msg => (e, some (.corruptCertificate msg))
  | .ok () =>
    match (e.prepare cfg bs.ourVotes).replayCertificates cfg bs.certificates with
    | (e, some err) => (e, some err)
    | (e, none) =>
      let e := e.startSession cfg bs.ourVotes
      (e, e.err?)

/-! ## Inputs -/

/-- Whether a peer is banned; an expired ban is dropped. -/
def isBanned (e : Engine) (peer : PeerID) : Bool :=
  match e.bans peer with
  | none => false
  | some until_ => !(e.clock > until_)

def ban (e : Engine) (peer : PeerID) : Engine :=
  { e with bans := Function.update e.bans peer (some (e.clock + e.params.badSignatureBanDuration)) }

def firstTooNewSlot (cfg : Config) (e : Engine) : UInt32 :=
  (e.pool.now / cfg.spw + e.params.maxLeaderWindowDesync + 1) * cfg.spw

/-- An inbound signed vote: all gates but the signature check. -/
def handleVote (cfg : Config) (e : Engine) (src : PeerID) (srcValidator : Option Nat) (v : Vote)
    (sig : Signature) : Engine :=
  match srcValidator with
  | none => e.ban src
  | some idx =>
    if cfg.validators.length ≤ idx then e.ban src
    else if e.firstTooNewSlot cfg ≤ v.slot then e
    else
      match e.pool.slots.get? v.slot with
      | none => e
      | some slot =>
        if (slot.votes idx).wants v then
          { e with pendingVerify := e.pendingVerify ++ [⟨src, idx, v, sig⟩] }
        else e

/-- The cheap part of certificate admission: the slot is pruned, or has this certificate or is
saving it. A slot from far ahead is only peeked at before the quorum checks out. -/
def knowsCertificate (cfg : Config) (e : Engine) (cert : Certificate) : Bool :=
  if e.firstTooNewSlot cfg ≤ cert.vote.slot then
    match e.pool.slots.peek cert.vote.slot with
    | none => false
    | some slot => !slot.needs cert.vote
  else
    match e.pool.slots.get? cert.vote.slot with
    | none => true
    | some slot => !slot.needs cert.vote

/-- An inbound certificate. One from far ahead is proof of progress and accepted too. -/
def handleCertificateMessage (cfg : Config) (e : Engine) (src : PeerID) (cert : Certificate) :
    Engine :=
  if e.knowsCertificate cfg cert then e
  else
    match cfg.verifyCertificate cert with
    | .error _ => e.ban src
    | .ok () => e.handleCertificate cert

def handleMessage (cfg : Config) (e : Engine) (src : PeerID) (srcValidator : Option Nat)
    (m : Message) : Engine :=
  if e.isBanned src then e
  else
    match m with
    | .malformed => e
    | .vote v sig => e.handleVote cfg src srcValidator v.decoded sig
    | .certificate cert =>
      e.handleCertificateMessage cfg src { cert with vote := cert.vote.decoded }

/-- Apply one buffered vote: the admission gates run again against current state. -/
def flushVote (cfg : Config) (tooNew : UInt32) (e : Engine) (p : PendingVote) : Engine :=
  if e.failed || e.isBanned p.src then e
  else if tooNew ≤ p.vote.slot then e
  else
    match e.pool.slots.get? p.vote.slot with
    | none => e
    | some slot =>
      if (slot.votes p.idx).wants p.vote then
        if cfg.verifyVote p.idx p.vote p.sig then
          (e.applyVote cfg p.idx p.vote p.sig false).1
        else e.ban p.src
      else e

def flushVerify (cfg : Config) (e : Engine) : Engine :=
  let e' := e.pendingVerify.foldl (flushVote cfg (e.firstTooNewSlot cfg)) e
  { e' with pendingVerify := [] }

def alarmIfDue (cfg : Config) (e : Engine) : Engine :=
  if !e.failed ∧ cfg.hasVoter ∧ e.voter.alarmArmed ∧ e.voter.alarmAt ≤ e.clock then
    e.fireVoterAlarm cfg
  else e

def standstillIfDue (cfg : Config) (e : Engine) (sends : Nat) : Engine :=
  match e.standstillAt with
  | some at_ => if !e.failed ∧ at_ ≤ e.clock then e.fireStandstill cfg sends else e
  | none => e

/-- Fire all timers that are due. -/
def advance (cfg : Config) (e : Engine) (sends : Nat) : Engine :=
  let e := ((e.flushVerify cfg).alarmIfDue cfg).standstillIfDue cfg sends
  if e.failed then e else e.stepDrain sends

def submitCandidate (cfg : Config) (e : Engine) (c : Candidate) : Engine :=
  if !cfg.hasVoter then e
  else
    match cfg.checkCandidate c with
    | .error _ => e
    | .ok cc => e.acceptCandidate cfg cc

def precheckCandidateBroadcast (cfg : Config) (e : Engine) (slot : UInt32) (broadcastID : Hash)
    (signatureChecked : Bool) : Except String Engine :=
  if !e.started || e.failed then .error "simplex: engine stopped"
  else if slot < e.pool.slots.firstNonFinalized then
    .error "simplex: slot is already finalized"
  else if e.pool.now + e.params.maxLeaderWindowDesync * cfg.spw < slot then
    .error "simplex: slot is too far in the future"
  else if e.seenBroadcasts slot ≠ none ∧ e.seenBroadcasts slot ≠ some broadcastID then
    .error "simplex: duplicate broadcast"
  else if signatureChecked then
    .ok { e with seenBroadcasts := Function.update e.seenBroadcasts slot (some broadcastID) }
  else .ok e

/-- `Stop`: all further inputs and late completions are ignored. -/
def stop (e : Engine) : Engine :=
  { e with stopped := true, parentWaits := [], drain := none, pending := [] }

end Engine

inductive Input where
  | message (src : PeerID) (srcValidator : Option Nat) (m : Message)
  | flushVerify
  | submitCandidate (c : Candidate)
  | precheckBroadcast (slot : UInt32) (broadcastID : Hash) (signatureChecked : Bool)
  | storeDone (id : CandidateID) (ok : Bool)
  | validateDone (id : CandidateID) (accepted : Bool)
  | advance (sends : Nat)
  | voteSaved (v : Vote) (ok : Bool)
  | certSaved (cert : Certificate) (res : SaveResult)
  | windowSaved (ok : Bool)
  | updateParams (p : Params)
  | stop

namespace Engine

/-- `run`: a top-level input on a started, healthy engine, then all queued notifications. -/
def run (cfg : Config) (e : Engine) (action : Engine → Engine) : Engine :=
  if !e.started || e.failed then e else (action e).drainPending cfg

/-- `completeAsync`: a journal continuation; unlike `run` it has no started gate. -/
def completeAsync (cfg : Config) (e : Engine) (action : Engine → Engine) : Engine :=
  if e.failed then e else (action e).drainPending cfg

/-- The journal side of an answered `SaveOurVote`. -/
def answerVote (e : Engine) (v : Vote) (ok : Bool) : Engine :=
  let j := { e.journal with voteSaves := e.journal.voteSaves.erase v }
  { e with journal := if ok then j.voteDurable v else j }

/-- The answer to a `SaveOurVote` that is in flight. -/
def voteSaved (cfg : Config) (e : Engine) (v : Vote) (ok : Bool) : Engine :=
  if v ∈ e.journal.voteSaves then
    (e.answerVote v ok).completeAsync cfg fun e =>
      if ok then e.finishVoteCast cfg v false else e.fatal (.voteJournal v)
  else e

/-- The journal side of an answered `SaveCertificate`. -/
def answerCert (e : Engine) (save : CertSave) (res : SaveResult) : Engine :=
  let j := { e.journal with certSaves := e.journal.certSaves.erase save }
  { e with journal := if res = .ok then j.certDurable save.cert else j }

/-- The answer to a `SaveCertificate`: a duplicate gets `ErrAlreadySaved`, a new record nil
once it is durable, or a write error. -/
def certSaved (cfg : Config) (e : Engine) (cert : Certificate) (res : SaveResult) : Engine :=
  let save : CertSave := ⟨cert, res = .alreadySaved⟩
  if save ∈ e.journal.certSaves then
    (e.answerCert save res).completeAsync cfg fun e => e.finishCertificateSave cfg cert res
  else e

def windowSaved (cfg : Config) (e : Engine) (ok : Bool) : Engine :=
  if e.journal.windowSaves = 0 then e
  else
    let e := { e with journal := { e.journal with windowSaves := e.journal.windowSaves - 1 } }
    if ok then e else e.completeAsync cfg fun e => e.fatal .poolStateJournal

/-- Serve one input at clock reading `t`. A candidate callback is used at most once. -/
def step (cfg : Config) (e : Engine) (t : Time) (input : Input) : Engine :=
  let e := { e with clock := t }
  match input with
  | .message src srcValidator m => e.run cfg fun e => e.handleMessage cfg src srcValidator m
  | .flushVerify => e.run cfg fun e => e.flushVerify cfg
  | .submitCandidate c => e.run cfg fun e => e.submitCandidate cfg c
  | .precheckBroadcast slot id checked =>
    match e.precheckCandidateBroadcast cfg slot id checked with
    | .ok e' => e'
    | .error _ => e
  | .storeDone id ok =>
    if id ∈ e.storeCallbacks then
      { e with storeCallbacks := e.storeCallbacks.erase id }.run cfg fun e =>
        e.completeStore cfg id ok
    else e
  | .validateDone id accepted =>
    if id ∈ e.validateCallbacks then
      { e with validateCallbacks := e.validateCallbacks.erase id }.run cfg fun e =>
        e.completeValidation cfg id accepted
    else e
  | .advance sends => e.run cfg fun e => e.advance cfg sends
  | .voteSaved v ok => e.voteSaved cfg v ok
  | .certSaved cert res => e.certSaved cfg cert res
  | .windowSaved ok => e.windowSaved cfg ok
  | .updateParams p => { e with params := p }
  | .stop => e.stop

end Engine

end Gton.Simplex
