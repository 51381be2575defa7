import Gton.Simplex.Engine

/-!
# What an engine can do, abstractly

`View` is an engine seen through what its safety rests on: voting records, certificates,
voting flags, journal and history, with one total function per kind of slot state. A `Move`
is one indivisible change of a view with the conditions the code checks for it. The engine's
functions are sequences of moves, so an invariant is proved once per move.
-/

namespace Gton.Simplex

open List Function

structure View where
  failed : Bool
  /-- Failed because an own vote contradicts the own record. -/
  conflicted : Bool
  started : Bool
  firstNonAnnouncedWindow : UInt32
  horizon : UInt32
  votes : UInt32 → Nat → ValidatorVotes
  certs : UInt32 → VoteKind → Option Certificate
  saving : UInt32 → VoteKind → Bool
  weight : UInt32 → Vote → UInt64
  lastFinalized : ParentID
  skipRuns : List UInt32
  waits : List Candidate
  drain : List Message
  voterHorizon : UInt32
  voter : UInt32 → VoterSlot
  queue : List Deferred
  inbox : List PendingVote
  voteLog : List VoteRecord
  certLog : List CertRecord
  voteSaves : List Vote
  certSaves : List CertSave
  trace : List Event

/-- What one input puts at the engine's disposal. -/
structure Ctx where
  /-- Own votes whose record is durable. -/
  acked : Vote → Prop
  /-- A vote message being delivered. -/
  arrived : PendingVote → Prop
  /-- A certificate message being delivered. -/
  received : Certificate → Prop
  /-- A certificate whose save was answered. -/
  answered : Certificate → Prop
  /-- A certificate of the journal being replayed. -/
  replayed : Certificate → Prop
  /-- The session may begin. -/
  opening : Prop

def Ctx.nothing : Ctx :=
  ⟨fun _ => False, fun _ => False, fun _ => False, fun _ => False, fun _ => False, False⟩

/-- The vote a message from validator `i` carries. -/
def Message.votes (m : Message) (i : Option Nat) (p : PendingVote) : Prop :=
  match m with
  | .vote v sig => i = some p.idx ∧ p.vote = v.decoded ∧ p.sig = sig
  | _ => False

/-- The certificate a message carries. -/
def Message.certifies (m : Message) (cert : Certificate) : Prop :=
  match m with
  | .certificate c => cert = { c with vote := c.vote.decoded }
  | _ => False

/-- Notifications that change nothing the view is about. -/
def Deferred.idle : Deferred → Bool
  | .onParentWaitDone _ .ok => false
  | .voterNotarizationObserved _ => false
  | .voterFinalizationObserved _ => false
  | _ => true

def Event.idle : Event → Bool
  | .broadcastToRandom _ | .storeCandidate _ | .validateCandidate _ | .handleWindow _
  | .onNotarized _ _ | .onFinalized _ _ | .onMisbehavior _ _ | .onFatal _ => true
  | _ => false

/-- The certificate of a kind a pool holds for a slot. -/
def Pool.certAt (p : Pool) (s : UInt32) (k : VoteKind) : Option Certificate :=
  ((p.slots.get? s).getD default).certByKind k

namespace View

def emit (v : View) (ev : Event) : View := { v with trace := ev :: v.trace }

def setVoter (v : View) (s : UInt32) (slot : VoterSlot) : View :=
  { v with voter := Function.update v.voter s slot }

def setVotes (v : View) (s : UInt32) (i : Nat) (vv : ValidatorVotes) : View :=
  { v with votes := Function.update v.votes s (Function.update (v.votes s) i vv) }

/-- `SaveOurVote` as the journal sees it. -/
def journalVote (v : View) (b : Vote) : View :=
  { v with
    voteLog := if v.voteLog.any fun r => decide (r.vote = b) then v.voteLog
      else v.voteLog ++ [⟨b, false⟩]
    voteSaves := if v.voteLog.any fun r => decide (r.vote = b) then v.voteSaves
      else v.voteSaves ++ [b]
    trace := .cast b :: v.trace }

/-- `SaveCertificate` as the journal sees it. -/
def journalCert (v : View) (cert : Certificate) : View :=
  let known := v.certLog.any fun r => decide (r.cert = cert)
  { v with
    certLog := if known then v.certLog else v.certLog ++ [⟨cert, false⟩]
    certSaves := v.certSaves ++ [⟨cert, known⟩]
    saving := Function.update v.saving cert.vote.slot
      (Function.update (v.saving cert.vote.slot) cert.vote.kind true) }

/-- Two votes that share one weight counter. -/
def SameCounter (a b : Vote) : Prop := a.kind = b.kind ∧ (a.kind = .skip ∨ a.id = b.id)

instance (a b : Vote) : Decidable (SameCounter a b) := by unfold SameCounter; infer_instance

def addWeight (v : View) (b : Vote) (w : UInt64) : View :=
  { v with weight := Function.update v.weight b.slot fun a =>
      if SameCounter a b then v.weight b.slot a + w else v.weight b.slot a }

/-- Enter a vote of validator `i` with its weight; an own one leaves its milestone. -/
def enter (cfg : Config) (v : View) (i : Nat) (b : Vote) (vv : ValidatorVotes) : View :=
  { (v.setVotes b.slot i vv).addWeight b (cfg.weight i) with
    trace := if cfg.localIndex = some i then .applied b :: v.trace else v.trace }

/-- Record an accepted certificate. -/
def storeCert (v : View) (cert : Certificate) : View :=
  { v with
    certs := Function.update v.certs cert.vote.slot
      (Function.update (v.certs cert.vote.slot) cert.vote.kind (some cert))
    saving := Function.update v.saving cert.vote.slot
      (Function.update (v.saving cert.vote.slot) cert.vote.kind false)
    trace := .certStored cert :: v.trace }

/-- The horizon after `notifyFinalized k`. -/
def raise (h k : UInt32) : UInt32 := if k + 1 ≤ h then h else k + 1

/-- Forget the slot state below a new horizon. -/
def prunePool (v : View) (h : UInt32) : View :=
  { v with
    horizon := h
    votes := fun s => if s < h then fun _ => {} else v.votes s
    certs := fun s => if s < h then fun _ => none else v.certs s
    saving := fun s => if s < h then fun _ => false else v.saving s
    weight := fun s => if s < h then fun _ => 0 else v.weight s }

def pruneVoter (v : View) (h : UInt32) : View :=
  { v with voterHorizon := h, voter := fun s => if s < h then default else v.voter s }

/-- The finalization of `cert`'s candidate. -/
def finalizeCert (v : View) (cert : Certificate) : View :=
  { (v.storeCert cert).prunePool (raise v.horizon cert.vote.slot) with
    lastFinalized := parent cert.vote.id
    skipRuns := eraseUpTo v.skipRuns cert.vote.slot
    queue := v.queue ++ [.voterFinalizationObserved cert.vote.id]
    drain := [] }

/-- A vote with a provenance the engine may count: signed here, or delivered and verified. -/
def Sourced (cfg : Config) (ctx : Ctx) (v : View) (i : Nat) (b : Vote) (sig : Signature) : Prop :=
  (cfg.localIndex = some i ∧ ctx.acked b ∧ Event.sign b ∈ v.trace) ∨
    ((∃ src, ⟨src, i, b, sig⟩ ∈ v.inbox) ∧ cfg.verifyVote i b sig = true)

/-- A pool with the certificates and runs of the view. -/
structure Matches (v : View) (p : Pool) : Prop where
  horizon : p.slots.firstNonFinalized = v.horizon
  certs : ∀ s k, p.certAt s k = v.certs s k
  lastFinalized : p.lastFinalized = v.lastFinalized
  skipRuns : p.skipRuns = v.skipRuns

/-- A parent wait decided in the candidate's favour. -/
def settle (v : View) (c : Candidate) (pool : Pool) : View :=
  { v with
    queue := v.queue ++ [.onParentWaitDone c .ok], trace := .parentSettled c pool :: v.trace }

/-- Housekeeping: timers, counters, notifications to the outside, dropped work, failure. -/
structure Quiet (v w : View) : Prop where
  failed : v.failed = true → w.failed = true := by exact fun h => h
  conflicted : w.conflicted = true → v.conflicted = true := by exact fun h => h
  started : w.started = v.started := by rfl
  window : w.started = false → w.firstNonAnnouncedWindow = v.firstNonAnnouncedWindow := by
    exact fun _ => rfl
  horizon : w.horizon = v.horizon := by rfl
  votes : w.votes = v.votes := by rfl
  certs : w.certs = v.certs := by rfl
  saving : w.saving = v.saving := by rfl
  weight : w.weight = v.weight := by rfl
  lastFinalized : w.lastFinalized = v.lastFinalized := by rfl
  skipRuns : w.skipRuns = v.skipRuns := by rfl
  waits : w.waits ⊆ v.waits := by exact List.Subset.refl _
  drain : w.drain ⊆ v.drain := by exact List.Subset.refl _
  voterHorizon : w.voterHorizon = v.voterHorizon := by rfl
  voter : w.voter = v.voter := by rfl
  queue : ∀ d ∈ w.queue, d ∈ v.queue ∨ d.idle = true := by exact fun _ h => .inl h
  inbox : w.inbox ⊆ v.inbox := by exact List.Subset.refl _
  voteLog : w.voteLog = v.voteLog := by rfl
  certLog : w.certLog = v.certLog := by rfl
  voteSaves : w.voteSaves ⊆ v.voteSaves := by exact List.Subset.refl _
  certSaves : w.certSaves ⊆ v.certSaves := by exact List.Subset.refl _
  trace : ∃ l, (∀ ev ∈ l, Event.idle ev = true) ∧ w.trace = l ++ v.trace := by
    exact ⟨[], by simp, rfl⟩

end View

/-- The voting rules of one slot: the vote that may be cast and the flags it leaves. -/
inductive CastRule (s : UInt32) (slot : VoterSlot) : Vote → VoterSlot → Prop where
  | notarize {id : CandidateID} (here : id.slot = s)
      (pending : slot.pending.map Candidate.id = some id) (validated : slot.validated = true)
      (stored : slot.stored = true) (fresh : slot.votedNotar = none) :
      CastRule s slot (notarizeVote id) { slot with votedNotar := some id }
  | finalize {id : CandidateID} (here : id.slot = s) (voted : slot.votedNotar = some id)
      (notSkip : slot.votedSkip = false) (notFinal : slot.votedFinal = false)
      (cert : slot.notarCert = some id) :
      CastRule s slot (finalizeVote id) { slot with votedFinal := true }
  | skip (notFinal : slot.votedFinal = false) :
      CastRule s slot (skipVote s) { slot with votedSkip := true }

/-- The voting flag a journaled vote keeps set. -/
def VoterSlot.Flagged (slot : VoterSlot) (b : Vote) : Prop :=
  match b.kind with
  | .notarize => slot.votedNotar = some b.id
  | .finalize => slot.votedFinal = true
  | .skip => slot.votedSkip = true

namespace CastRule

variable {s : UInt32} {slot slot' : VoterSlot} {a b : Vote}

theorem slot_eq (h : CastRule s slot b slot') : b.slot = s := by
  cases h with
  | notarize here => exact here
  | finalize here => exact here
  | skip => rfl

theorem flagged (h : CastRule s slot b slot') : slot'.Flagged b := by
  cases h <;> rfl

theorem keeps (h : CastRule s slot b slot') (ha : slot.Flagged a) : slot'.Flagged a := by
  cases h with
  | notarize _ _ _ _ fresh =>
    unfold VoterSlot.Flagged at ha ⊢
    split
    next hk =>
      simp only [hk, fresh] at ha
      cases ha
    · rename_i hk; simpa only [hk] using ha
    · rename_i hk; simpa only [hk] using ha
  | finalize =>
    unfold VoterSlot.Flagged at ha ⊢
    cases hk : a.kind <;> simp_all
  | skip =>
    unfold VoterSlot.Flagged at ha ⊢
    cases hk : a.kind <;> simp_all

end CastRule

/-- What storing an accepted certificate makes of the view. -/
inductive Store (cert : Certificate) (v : View) : View → Prop where
  | notar (kind : cert.vote.kind = .notarize) :
      Store cert v { v.storeCert cert with
        queue := v.queue ++ [.voterNotarizationObserved cert.vote.id] }
  | skip {runs : List UInt32} (kind : cert.vote.kind = .skip)
      (kept : ∀ x ∈ v.skipRuns, x ≠ cert.vote.slot → x ∈ runs)
      (ended : v.certs (cert.vote.slot + 1) .skip = none → cert.vote.slot + 1 ∈ runs)
      (ascending : Ascending v.skipRuns → Ascending runs) :
      Store cert v { v.storeCert cert with skipRuns := runs }
  | final (kind : cert.vote.kind = .finalize) (noSkip : v.certs cert.vote.slot .skip = none) :
      Store cert v (v.finalizeCert cert)
  /-- The transition of the stored certificate failed. -/
  | failed : Store cert v { v.storeCert cert with failed := true }

inductive Move (cfg : Config) (ctx : Ctx) : View → View → Prop where
  | quiet {v w : View} (h : v.Quiet w) : Move cfg ctx v w
  | begin {v : View} (opening : ctx.opening) : Move cfg ctx v { v with started := true }
  /-- Cast a vote: flags first, then the journal. -/
  | cast {v : View} {s : UInt32} {b : Vote} {slot : VoterSlot}
      (rule : CastRule s (v.voter s) b slot) (live : v.voterHorizon ≤ s) (ok : v.failed = false)
      (voter : cfg.hasVoter = true) : Move cfg ctx v ((v.setVoter s slot).journalVote b)
  /-- An engine that failed or has no vote still sets the flags. -/
  | flag {v : View} {s : UInt32} {b : Vote} {slot : VoterSlot}
      (rule : CastRule s (v.voter s) b slot) (live : v.voterHorizon ≤ s)
      (mute : v.failed = true ∨ cfg.hasVoter = false) : Move cfg ctx v (v.setVoter s slot)
  | observe {v : View} {id : CandidateID} {rest : List Deferred}
      (queued : v.queue = .voterNotarizationObserved id :: rest)
      (live : v.voterHorizon ≤ id.slot) :
      Move cfg ctx v ({ v with queue := rest }.setVoter id.slot
        { v.voter id.slot with notarCert := some id })
  | pruneVoter {v : View} {id : CandidateID} {rest : List Deferred}
      (queued : v.queue = .voterFinalizationObserved id :: rest) :
      Move cfg ctx v ({ v with queue := rest }.pruneVoter (View.raise v.voterHorizon id.slot))
  | accept {v : View} {c₀ c : Candidate} (admitted : cfg.checkCandidate c₀ = .ok c)
      (live : v.voterHorizon ≤ c.id.slot) (fresh : (v.voter c.id.slot).votedNotar = none)
      (idle : (v.voter c.id.slot).pending = none) :
      Move cfg ctx v ((v.setVoter c.id.slot
        { v.voter c.id.slot with pending := some c, storeInFlight := true }).emit (.submitted c))
  | wait {v : View} {c : Candidate} (submitted : .submitted c ∈ v.trace)
      (open_ : v.started = true) :
      Move cfg ctx v { v with waits := v.waits ++ [c] }
  | settle {v : View} {c : Candidate} {pool : Pool} (waiting : c ∈ v.waits)
      (pool_eq : v.Matches pool) (ok : pool.evaluateParentWait c = .done .ok) :
      Move cfg ctx v (v.settle c pool)
  | parentDone {v : View} {c : Candidate} {rest : List Deferred}
      (queued : v.queue = .onParentWaitDone c .ok :: rest) (live : v.voterHorizon ≤ c.id.slot)
      (pending : (v.voter c.id.slot).pending.map Candidate.id = some c.id) :
      Move cfg ctx v ({ v with queue := rest }.setVoter c.id.slot
        { v.voter c.id.slot with validationInFlight := true })
  | validated {v : View} {id : CandidateID} (live : v.voterHorizon ≤ id.slot)
      (pending : (v.voter id.slot).pending.map Candidate.id = some id)
      (flying : (v.voter id.slot).validationInFlight = true) :
      Move cfg ctx v ((v.setVoter id.slot
        { v.voter id.slot with validationInFlight := false, validated := true }).emit
          (.validated id))
  | stored {v : View} {id : CandidateID} (live : v.voterHorizon ≤ id.slot)
      (pending : (v.voter id.slot).pending.map Candidate.id = some id) :
      Move cfg ctx v ((v.setVoter id.slot
        { v.voter id.slot with storeInFlight := false, stored := true }).emit (.stored id))
  /-- A rejected candidate or a failed store. -/
  | dropped {v : View} {s : UInt32} {a b : Bool} (live : v.voterHorizon ≤ s)
      (flying : a = true → (v.voter s).validationInFlight = true) :
      Move cfg ctx v (v.setVoter s
        { v.voter s with validationInFlight := a, storeInFlight := b })
  | sign {v : View} {b : Vote} (durable : ctx.acked b) (ok : v.failed = false) :
      Move cfg ctx v (v.emit (.sign b))
  | apply {v : View} {i : Nat} {b : Vote} {sig : Signature} {vv : ValidatorVotes}
      (sourced : v.Sourced cfg ctx i b sig) (live : v.horizon ≤ b.slot) (ok : v.failed = false)
      (added : (v.votes b.slot i).add ⟨b, sig, none⟩ = (vv, true, none)) :
      Move cfg ctx v (v.enter cfg i b vv)
  /-- An own vote contradicts the own record. -/
  | conflict {v : View} {i : Nat} {b : Vote} {sig : Signature}
      (own : cfg.localIndex = some i) (sourced : v.Sourced cfg ctx i b sig) (ok : v.failed = false)
      (live : v.horizon ≤ b.slot)
      (clash : ((v.votes b.slot i).add ⟨b, sig, none⟩).2.2.isSome = true) :
      Move cfg ctx v { v with failed := true, conflicted := true }
  | send {v : View} {b : Vote} {sig : Signature} (applied : .applied b ∈ v.trace) :
      Move cfg ctx v (v.emit (.broadcastToAll (.vote b sig)))
  | resend {v : View} {m : Message} (queued : m ∈ v.drain) :
      Move cfg ctx v (v.emit (.broadcastToValidators m))
  /-- Collect the standstill messages: certificates and own direct votes. -/
  | standstill {v : View} {msgs : List Message}
      (own : ∀ b sig, .vote b sig ∈ msgs → ∃ i s k p, cfg.localIndex = some i ∧
        (v.votes s i).byKind k = some p ∧ p.cert = none ∧ p.vote = b) :
      Move cfg ctx v { v with drain := msgs }
  | buffer {v : View} {p : PendingVote} (arrived : ctx.arrived p) :
      Move cfg ctx v { v with inbox := v.inbox ++ [p] }
  | save {v : View} {cert : Certificate} (live : v.horizon ≤ cert.vote.slot)
      (absent : v.certs cert.vote.slot cert.vote.kind = none)
      (idle : v.saving cert.vote.slot cert.vote.kind = false)
      (source : (ctx.received cert ∧ cfg.verifyCertificate cert = .ok ()) ∨
        (cfg.threshold ≤ v.weight cert.vote.slot cert.vote ∧
          cert = cfg.buildCertificate (v.votes cert.vote.slot) cert.vote ∧
          ∃ i k, (v.votes cert.vote.slot i).byKind k ≠ none)) :
      Move cfg ctx v (v.journalCert cert)
  | extract {v : View} {cert : Certificate} {s : VoteSignature} (answered : ctx.answered cert)
      (mem : s ∈ cert.signatures) (live : v.horizon ≤ cert.vote.slot) :
      Move cfg ctx v (v.setVotes cert.vote.slot s.validatorIndex
        ((v.votes cert.vote.slot s.validatorIndex).add ⟨cert.vote, s.signature, some cert⟩).1)
  | store {v w : View} {cert : Certificate} (source : ctx.answered cert ∨ ctx.replayed cert)
      (live : v.horizon ≤ cert.vote.slot)
      (absent : v.certs cert.vote.slot cert.vote.kind = none) (h : Store cert v w) :
      Move cfg ctx v w

abbrev Moves (cfg : Config) (ctx : Ctx) : View → View → Prop := Relation.ReflTransGen (Move cfg ctx)

/-! ## What moves never undo -/

structure Grows (v w : View) : Prop where
  failed : v.failed = true → w.failed = true := by exact fun h => h
  started : v.started = true → w.started = true := by exact fun h => h
  window : w.started = false → w.firstNonAnnouncedWindow = v.firstNonAnnouncedWindow := by
    exact fun _ => rfl
  trace : v.trace <:+ w.trace := by exact List.suffix_refl _
  voteLog : v.voteLog <+: w.voteLog := by exact List.prefix_refl _
  certLog : v.certLog <+: w.certLog := by exact List.prefix_refl _
  horizon : v.horizon ≤ w.horizon := by exact UInt32.le_refl _
  certs : ∀ s k c, w.horizon ≤ s → v.certs s k = some c → w.certs s k = some c := by
    exact fun _ _ _ _ h => h
  voterHorizon : v.voterHorizon ≤ w.voterHorizon := by exact UInt32.le_refl _
  flags : ∀ s b, w.voterHorizon ≤ s → (v.voter s).Flagged b → (w.voter s).Flagged b := by
    exact fun _ _ _ h => h

namespace Grows

theorem refl (v : View) : Grows v v := {}

theorem trans {u v w : View} (h : Grows u v) (h' : Grows v w) : Grows u w where
  failed hf := h'.failed (h.failed hf)
  started hs := h'.started (h.started hs)
  window hw := by
    rw [h'.window hw]
    refine h.window (Bool.not_eq_true _ ▸ fun hs => ?_)
    rw [h'.started hs] at hw
    cases hw
  trace := h.trace.trans h'.trace
  voteLog := h.voteLog.trans h'.voteLog
  certLog := h.certLog.trans h'.certLog
  horizon := UInt32.le_trans h.horizon h'.horizon
  certs s k c live hc := h'.certs s k c live (h.certs s k c (UInt32.le_trans h'.horizon live) hc)
  voterHorizon := UInt32.le_trans h.voterHorizon h'.voterHorizon
  flags s b live hb := h'.flags s b live (h.flags s b (UInt32.le_trans h'.voterHorizon live) hb)

end Grows

variable {cfg : Config} {ctx : Ctx} {v w : View} {s : UInt32} {cert : Certificate}

theorem View.votes_setVotes (v : View) (s t : UInt32) (i j : Nat) (vv : ValidatorVotes) :
    (v.setVotes s i vv).votes t j = if t = s ∧ j = i then vv else v.votes t j := by
  unfold View.setVotes
  by_cases ht : t = s
  · subst ht
    by_cases hj : j = i
    · subst hj
      simp
    · simp [hj]
  · simp [ht]

theorem View.votes_enter (cfg : Config) (v : View) (i j : Nat) (b : Vote) (t : UInt32)
    (vv : ValidatorVotes) :
    (v.enter cfg i b vv).votes t j = if t = b.slot ∧ j = i then vv else v.votes t j :=
  View.votes_setVotes ..

theorem View.votes_finalizeCert (v : View) (cert : Certificate) (s : UInt32) :
    (v.finalizeCert cert).votes s =
      if s < View.raise v.horizon cert.vote.slot then fun _ => {} else v.votes s := rfl

theorem View.certs_storeCert (v : View) (cert : Certificate) (s : UInt32) (k : VoteKind) :
    (v.storeCert cert).certs s k =
      if s = cert.vote.slot ∧ k = cert.vote.kind then some cert else v.certs s k := by
  unfold View.storeCert
  by_cases hs : s = cert.vote.slot
  · subst hs
    by_cases hk : k = cert.vote.kind
    · subst hk
      simp
    · simp [hk]
  · simp [hs]

theorem View.certs_storeCert_of_some {c : Certificate} {k : VoteKind}
    (absent : v.certs cert.vote.slot cert.vote.kind = none) (h : v.certs s k = some c) :
    (v.storeCert cert).certs s k = some c := by
  rw [View.certs_storeCert, if_neg ?_, h]
  rintro ⟨rfl, rfl⟩
  rw [absent] at h
  cases h

theorem View.certs_finalizeCert (live : (v.finalizeCert cert).horizon ≤ s) :
    (v.finalizeCert cert).certs s = (v.storeCert cert).certs s :=
  if_neg (UInt32.not_lt.mpr live)

theorem View.voter_pruneVoter {h : UInt32} (live : (v.pruneVoter h).voterHorizon ≤ s) :
    (v.pruneVoter h).voter s = v.voter s := if_neg (UInt32.not_lt.mpr live)

theorem View.le_raise (h k : UInt32) : h ≤ View.raise h k := by
  unfold View.raise
  split
  · exact UInt32.le_refl _
  next hk =>
    exact UInt32.le_of_lt (UInt32.not_le.mp hk)

theorem View.lt_raise (h k : UInt32) : k + 1 ≤ View.raise h k := by
  unfold View.raise
  split
  · assumption
  · exact UInt32.le_refl _

theorem View.flagged_setVoter {j : UInt32} {b : Vote} {slot : VoterSlot}
    (keep : (v.voter s).Flagged b → slot.Flagged b) (h : (v.voter j).Flagged b) :
    ((v.setVoter s slot).voter j).Flagged b := by
  unfold View.setVoter
  by_cases hj : j = s
  · subst hj
    simpa using keep h
  · simpa [update_of_ne hj] using h

section

variable (m : Move cfg ctx v w) {id : CandidateID}

include m

theorem Move.grows : Grows v w := by
  have same := Grows.refl v
  have emitted {ev : Event} : v.trace <:+ ev :: v.trace := suffix_cons ev v.trace
  -- with the written fields as variables the untouched ones are compared at once
  have entered {votes : UInt32 → Nat → ValidatorVotes} {weight : UInt32 → Vote → UInt64}
      {trace : List Event} (h : v.trace <:+ trace) :
      Grows v { v with votes := votes, weight := weight, trace := trace } :=
    { same with trace := h }
  have voted {voter : UInt32 → VoterSlot} {voteLog : List VoteRecord} {voteSaves : List Vote}
      {trace : List Event} (ht : v.trace <:+ trace) (hl : v.voteLog <+: voteLog)
      (keep : ∀ s b, (v.voter s).Flagged b → (voter s).Flagged b) : Grows v { v with
        voter := voter, voteLog := voteLog, voteSaves := voteSaves, trace := trace } :=
    { same with trace := ht, voteLog := hl, flags := fun s b _ => keep s b }
  cases m with
  | quiet h =>
    obtain ⟨l, -, e⟩ := h.trace
    exact
      { failed := h.failed, started := fun hs => by rw [h.started]; exact hs, window := h.window
        trace := ⟨l, e.symm⟩
        voteLog := by rw [h.voteLog]
        certLog := by rw [h.certLog]
        horizon := by rw [h.horizon]; exact UInt32.le_refl _
        certs := fun s k c _ hc => by rw [h.certs]; exact hc
        voterHorizon := by rw [h.voterHorizon]; exact UInt32.le_refl _
        flags := fun s b _ hb => by rw [h.voter]; exact hb }
  | begin => exact { same with started := fun _ => rfl, window := fun h => by cases h }
  | cast rule =>
    refine voted emitted ?_ fun s b => View.flagged_setVoter rule.keeps
    split
    · exact prefix_refl _
    · exact prefix_append _ _
  | flag rule => exact { same with flags := fun s b _ => View.flagged_setVoter rule.keeps }
  | observe =>
    exact { same with
      flags := fun s b _ => View.flagged_setVoter (v := { v with queue := _ }) fun h => h }
  | pruneVoter =>
    exact
      { same with
        voterHorizon := View.le_raise _ _
        flags := fun s b live h => by
          rw [View.voter_pruneVoter live]
          exact h }
  | accept => exact voted emitted (prefix_refl _) fun s b => View.flagged_setVoter fun h => h
  | wait => exact { same with }
  | settle => exact { same with trace := emitted }
  | parentDone =>
    exact { same with
      flags := fun s b _ => View.flagged_setVoter (v := { v with queue := _ }) fun h => h }
  | validated | stored =>
    exact voted emitted (prefix_refl _) fun s b => View.flagged_setVoter fun h => h
  | dropped => exact { same with flags := fun s b _ => View.flagged_setVoter fun h => h }
  | sign => exact { same with trace := emitted }
  | apply =>
    refine entered ?_
    split
    · exact emitted
    · exact suffix_refl _
  | conflict => exact { same with failed := fun _ => rfl }
  | send | resend => exact { same with trace := emitted }
  | standstill | buffer => exact { same with }
  | save =>
    exact
      { same with
        certLog := by
          unfold View.journalCert
          dsimp only
          split
          · exact prefix_refl _
          · exact prefix_append _ _ }
  | extract => exact { same with }
  | store source live absent h =>
    have kept (s : UInt32) (k : VoteKind) (c : Certificate) (hc : v.certs s k = some c) :
        (v.storeCert _).certs s k = some c := View.certs_storeCert_of_some absent hc
    cases h with
    | notar | skip => exact { same with trace := emitted, certs := fun s k c _ => kept s k c }
    | final =>
      exact
        { same with
          trace := emitted
          horizon := View.le_raise _ _
          certs := fun s k c live hc => by
            rw [View.certs_finalizeCert live]
            exact kept s k c hc }
    | failed =>
      exact { same with
        failed := fun _ => rfl, trace := emitted, certs := fun s k c _ => kept s k c }

theorem Move.casts :
    (w.voteLog = v.voteLog ∧ ∃ l, w.trace = l ++ v.trace ∧ ∀ b, .cast b ∉ l) ∨
      ∃ s b slot, CastRule s (v.voter s) b slot ∧ v.voterHorizon ≤ s ∧ v.failed = false ∧
        w = (v.setVoter s slot).journalVote b := by
  have emitted {ev : Event} (plain : ∀ b, ev ≠ .cast b) : v.voteLog = v.voteLog ∧
      ∃ l, ev :: v.trace = l ++ v.trace ∧ ∀ b, .cast b ∉ l :=
    ⟨rfl, [ev], rfl, fun b hb => plain b (mem_singleton.mp hb).symm⟩
  have silent : v.voteLog = v.voteLog ∧ ∃ l, v.trace = l ++ v.trace ∧ ∀ b, .cast b ∉ l :=
    ⟨rfl, [], rfl, by simp⟩
  cases m with
  | quiet q =>
    obtain ⟨l, idle, trace⟩ := q.trace
    exact .inl ⟨q.voteLog, l, trace, fun b hb => by cases idle _ hb⟩
  | cast rule live ok => exact .inr ⟨_, _, _, rule, live, ok, rfl⟩
  | apply =>
    refine .inl ⟨rfl, ?_⟩
    unfold View.enter
    split
    · exact (emitted (by simp)).2
    · exact silent.2
  | accept | settle | validated | stored | sign | send | resend => exact .inl (emitted (by simp))
  | store _ _ _ h => cases h <;> exact .inl (emitted (by simp))
  | _ => exact .inl silent

theorem Move.saves {r : CertRecord} (hr : r ∈ w.certLog) : r ∈ v.certLog ∨
    (ctx.received r.cert ∧ cfg.verifyCertificate r.cert = .ok ()) ∨
    (cfg.threshold ≤ v.weight r.cert.vote.slot r.cert.vote ∧
      r.cert = cfg.buildCertificate (v.votes r.cert.vote.slot) r.cert.vote) := by
  cases m with
  | quiet q => exact .inl (q.certLog ▸ hr)
  | save _ _ _ source =>
    unfold View.journalCert at hr
    dsimp only at hr
    split at hr
    · exact .inl hr
    · rcases mem_append.mp hr with hr | hr
      · exact .inl hr
      · rw [mem_singleton.mp hr]
        exact .inr (source.imp_right fun built => ⟨built.1, built.2.1⟩)
  | store _ _ _ h => cases h <;> exact .inl hr
  | _ => exact .inl hr

/-- What a move that stores no certificate leaves alone. -/
structure SamePool (v w : View) : Prop where
  failed : w.failed = false → v.failed = false := by exact fun h => h
  horizon : w.horizon = v.horizon := by rfl
  certs : w.certs = v.certs := by rfl
  lastFinalized : w.lastFinalized = v.lastFinalized := by rfl
  skipRuns : w.skipRuns = v.skipRuns := by rfl
  trace : ∀ c, .certStored c ∈ w.trace → .certStored c ∈ v.trace := by exact fun _ h => h

omit m in
theorem SamePool.refl (v : View) : SamePool v v := {}

/-- The pool's certificates only change by storing one. -/
theorem Move.stores :
    SamePool v w ∨ ∃ cert, (ctx.answered cert ∨ ctx.replayed cert) ∧
      v.horizon ≤ cert.vote.slot ∧ v.certs cert.vote.slot cert.vote.kind = none ∧
      Store cert v w := by
  have same := SamePool.refl v
  have emitted {ev : Event} (plain : ∀ c, ev ≠ .certStored c) (c : Certificate)
      (hc : .certStored c ∈ ev :: v.trace) : .certStored c ∈ v.trace :=
    (mem_cons.mp hc).resolve_left fun e => plain c e.symm
  cases m with
  | quiet q =>
    obtain ⟨l, idle, trace⟩ := q.trace
    refine .inl ⟨fun ok => ?_, q.horizon, q.certs, q.lastFinalized, q.skipRuns, fun c hc => ?_⟩
    · by_contra dead
      rw [q.failed (by simpa using dead)] at ok
      cases ok
    · rw [trace] at hc
      refine (mem_append.mp hc).resolve_left fun hl => ?_
      cases idle _ hl
  | cast | accept | settle | validated | stored | sign | send | resend =>
    exact .inl { same with trace := emitted (by simp) }
  | apply =>
    refine .inl { same with trace := fun c hc => ?_ }
    unfold View.enter at hc
    split at hc
    · exact emitted (by simp) c hc
    · exact hc
  | conflict => exact .inl { same with failed := fun h => by cases h }
  | store source live absent h => exact .inr ⟨_, source, live, absent, h⟩
  | _ => exact .inl { same with }

/-- The voter is told of a notarization when its certificate is stored. -/
theorem Move.notarizes (hq : .voterNotarizationObserved id ∈ w.queue) :
    .voterNotarizationObserved id ∈ v.queue ∨ ∃ cert, (ctx.answered cert ∨ ctx.replayed cert) ∧
      cert.vote = notarizeVote id ∧ w.certs id.slot .notarize = some cert := by
  cases m with
  | quiet q => exact .inl ((q.queue _ hq).resolve_right (by simp [Deferred.idle]))
  | observe queued => exact .inl (by rw [queued]; exact mem_cons_of_mem _ hq)
  | pruneVoter queued => exact .inl (by rw [queued]; exact mem_cons_of_mem _ hq)
  | settle => exact .inl ((mem_append.mp hq).resolve_right (by simp))
  | parentDone queued => exact .inl (by rw [queued]; exact mem_cons_of_mem _ hq)
  | store source live absent stored =>
    rename_i cert
    cases stored with
    | notar kind =>
      rcases mem_append.mp hq with hq | hq
      · exact .inl hq
      · cases mem_singleton.mp hq
        refine .inr ⟨cert, source, congrArg (Vote.mk · cert.vote.id) kind, ?_⟩
        rw [View.certs_storeCert, if_pos ⟨rfl, kind.symm⟩]
    | skip => exact .inl hq
    | final => exact .inl ((mem_append.mp hq).resolve_right (by simp))
    | failed => exact .inl hq
  | _ => exact .inl hq

/-- The voter learns of a notarize certificate from the queue only. -/
theorem Move.sees (live : w.voterHorizon ≤ s) (hn : (w.voter s).notarCert = some id) :
    (v.voter s).notarCert = some id ∨ (id.slot = s ∧ .voterNotarizationObserved id ∈ v.queue) := by
  have written {t : UInt32} {slot : VoterSlot}
      (hn : (Function.update v.voter t slot s).notarCert = some id)
      (keep : slot.notarCert = (v.voter t).notarCert) : (v.voter s).notarCert = some id := by
    by_cases hs : s = t
    · subst hs
      rw [update_self, keep] at hn
      exact hn
    · rw [update_of_ne hs] at hn
      exact hn
  cases m with
  | quiet q => exact .inl (q.voter ▸ hn)
  | cast rule => exact .inl (written hn (by cases rule <;> rfl))
  | flag rule => exact .inl (written hn (by cases rule <;> rfl))
  | observe queued alive =>
    rename_i id' rest
    change (Function.update v.voter id'.slot _ s).notarCert = some id at hn
    by_cases hs : s = id'.slot
    · subst hs
      rw [update_self] at hn
      cases hn
      exact .inr ⟨rfl, by rw [queued]; exact mem_cons_self⟩
    · rw [update_of_ne hs] at hn
      exact .inl hn
  | pruneVoter => exact .inl (View.voter_pruneVoter live ▸ hn)
  | accept | parentDone | validated | stored | dropped => exact .inl (written hn rfl)
  | store _ _ _ stored => cases stored <;> exact .inl hn
  | _ => exact .inl hn

theorem Move.started (closed : ¬ ctx.opening) : w.started = v.started := by
  cases m with
  | quiet h => exact h.started
  | begin opening => exact (closed opening).elim
  | store _ _ _ h => cases h <;> rfl
  | _ => rfl

end

theorem Moves.started (m : Moves cfg ctx v w) (closed : ¬ ctx.opening) : w.started = v.started := by
  induction m with
  | refl => rfl
  | tail _ m ih => exact (m.started closed).trans ih

theorem Moves.grows (m : Moves cfg ctx v w) : Grows v w := by
  induction m with
  | refl => exact .refl v
  | tail _ m ih => exact ih.trans m.grows

end Gton.Simplex
