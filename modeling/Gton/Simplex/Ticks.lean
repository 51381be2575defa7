import Gton.Simplex.Engine
import Gton.Simplex.Records

/-!
# What an engine can do, in full

A `Tick` is one call of the functions that count votes, store certificates, move candidates on
or fail, with what the caller has checked. Everything else is plain: it leaves the pool and the
waiting candidates alone and reports nobody. Every input, and `Start`, is a sequence of ticks.
-/

namespace Gton.Simplex

open List

def Event.window? : Event → Option Window
  | .handleWindow w => some w
  | _ => none

def Deferred.window? : Deferred → Option Window
  | .handleWindow w => some w
  | _ => none

/-- The errors `advancePresent` raises against its own state. -/
def FatalError.isPresent : FatalError → Bool
  | .presentBelowHorizon _ | .noAvailableBase _ => true
  | _ => false

def Event.submitted? : Event → Option Candidate
  | .submitted c => some c
  | _ => none

/-- The candidate a closure moves on, and how its wait was decided. -/
def Deferred.moved? : Deferred → Option (Candidate × ParentWaitOutcome)
  | .onParentWaitDone c out => some (c, out)
  | _ => none

/-- Events that announce, accept and report nothing. -/
def Event.plain : Event → Bool
  | .handleWindow _ | .submitted _ | .onMisbehavior _ _ => false
  | _ => true

def Deferred.plain : Deferred → Bool
  | .handleWindow _ | .onParentWaitDone _ _ | .onMisbehavior _ _ => false
  | _ => true

namespace Engine

/-- The announced windows in order: those the hook was called with, then those queued. -/
def windows (e : Engine) : List Window :=
  (e.trace.filterMap Event.window?).reverse ++ e.pending.filterMap Deferred.window?

/-- The accepted candidates, newest first. -/
def submissions (e : Engine) : List Candidate := e.trace.filterMap Event.submitted?

/-- The candidates queued to be moved on. -/
def moving (e : Engine) : List (Candidate × ParentWaitOutcome) :=
  e.pending.filterMap Deferred.moved?

/-- A report that was delivered or is on its way to the hook. -/
inductive Reports (e : Engine) : Nat → Misbehavior → Prop where
  | delivered {i : Nat} {m : Misbehavior} (h : .onMisbehavior i m ∈ e.trace) : Reports e i m
  | queued {i : Nat} {m : Misbehavior} (h : .onMisbehavior i m ∈ e.pending) : Reports e i m
  | decided {c : Candidate} {m : Misbehavior}
      (h : .onParentWaitDone c (.misbehavior m) ∈ e.pending) : Reports e c.leader.toNat m

/-! ## What certificate transitions leave alone -/

theorem pool_fatal (e : Engine) (err : FatalError) : (e.fatal err).pool = e.pool := by
  unfold fatal
  split <;> rfl

/-- Only the present slot and the announced windows move. -/
theorem pool_advancePresent (cfg : Config) (e : Engine) :
    (e.advancePresent cfg).pool =
      { e.pool with
        now := (e.advancePresent cfg).pool.now
        firstNonAnnouncedWindow := (e.advancePresent cfg).pool.firstNonAnnouncedWindow } := by
  have announced (e : Engine) : (e.announceWindow cfg).pool =
      { e.pool with
        now := (e.announceWindow cfg).pool.now
        firstNonAnnouncedWindow := (e.announceWindow cfg).pool.firstNonAnnouncedWindow } := by
    unfold announceWindow
    dsimp only
    split
    · rfl
    · split
      · rw [pool_fatal]
      · unfold windowObserved
        split <;> rfl
  unfold advancePresent
  dsimp only
  split
  · rfl
  · split
    · exact announced _
    · rw [pool_fatal]

/-- Buffered votes, the journal's votes and certificates and `Stop` are the same. -/
structure SameBooks (e e' : Engine) : Prop where
  stopped : e'.stopped = e.stopped := by rfl
  pendingVerify : e'.pendingVerify = e.pendingVerify := by rfl
  voteSaves : e'.journal.voteSaves = e.journal.voteSaves := by rfl
  certSaves : e'.journal.certSaves = e.journal.certSaves := by rfl
  certs : e'.journal.certs = e.journal.certs := by rfl

namespace SameBooks

variable {e e' e'' : Engine}

theorem refl (e : Engine) : SameBooks e e := {}

theorem trans (h : SameBooks e e') (h' : SameBooks e' e'') : SameBooks e e'' :=
  ⟨h'.stopped.trans h.stopped, h'.pendingVerify.trans h.pendingVerify,
    h'.voteSaves.trans h.voteSaves, h'.certSaves.trans h.certSaves, h'.certs.trans h.certs⟩

end SameBooks

/-- The pool changes, notifications are queued, or the engine fails. -/
structure Inner (e e' : Engine) : Prop extends SameBooks e e' where
  parentWaits : e'.parentWaits = e.parentWaits := by rfl
  submissions : e'.submissions = e.submissions := by rfl
  reports : ∀ i m, e'.Reports i m → e.Reports i m
  alive : e'.failed = false → e.failed = false ∧ e'.moving = e.moving := by
    exact fun ok => ⟨ok, rfl⟩

variable {ds : List Deferred} {d : Deferred} {ev : Event}

namespace Inner

variable {cfg : Config} {e e' e'' : Engine}

theorem refl (e : Engine) : Inner e e := { reports := fun _ _ h => h }

theorem trans (h : Inner e e') (h' : Inner e' e'') : Inner e e'' where
  toSameBooks := h.toSameBooks.trans h'.toSameBooks
  parentWaits := h'.parentWaits.trans h.parentWaits
  submissions := h'.submissions.trans h.submissions
  reports i m hr := h.reports i m (h'.reports i m hr)
  alive ok := by
    obtain ⟨ok', moved'⟩ := h'.alive ok
    obtain ⟨ok, moved⟩ := h.alive ok'
    exact ⟨ok, moved'.trans moved⟩

theorem reports_of_eq (trace : e'.trace = e.trace) (pending : e'.pending = e.pending) (i : Nat)
    (m : Misbehavior) (h : e'.Reports i m) : e.Reports i m := by
  cases h with
  | delivered h => exact .delivered (trace ▸ h)
  | queued h => exact .queued (pending ▸ h)
  | decided h => exact .decided (pending ▸ h)

theorem reports_pop (queue : e.pending = d :: ds) (i : Nat)
    (m : Misbehavior) (h : Reports { e with pending := ds } i m) : e.Reports i m := by
  cases h with
  | delivered mem => exact .delivered mem
  | queued mem => exact .queued (queue ▸ mem_cons_of_mem _ mem)
  | decided mem => exact .decided (queue ▸ mem_cons_of_mem _ mem)

theorem reports_emit (other : ∀ i m, ev ≠ .onMisbehavior i m) (i : Nat)
    (m : Misbehavior) (h : (e.emit ev).Reports i m) : e.Reports i m := by
  cases h with
  | delivered mem =>
    rcases mem_cons.mp mem with eq | mem
    · exact absurd eq.symm (other i m)
    · exact .delivered mem
  | queued mem => exact .queued mem
  | decided mem => exact .decided mem

theorem emit (e : Engine) (other : ∀ i m, ev ≠ .onMisbehavior i m)
    (submitted : ev.submitted? = none) : Inner e (e.emit ev) :=
  { refl e with
    reports := reports_emit other
    submissions := by simp [Engine.submissions, Engine.emit, submitted] }

theorem pool (e : Engine) (p : Pool) : Inner e { e with pool := p } :=
  { refl e with reports := reports_of_eq rfl rfl }

theorem enqueue (e : Engine) (moved : d.moved? = none)
    (silent : ∀ i m, d ≠ .onMisbehavior i m) : Inner e (e.enqueue d) := by
  refine { refl e with reports := ?_, alive := fun ok => ⟨ok, ?_⟩ }
  · intro i m reported
    cases reported with
    | delivered h => exact .delivered h
    | queued h =>
      rcases mem_append.mp h with h | h
      · exact .queued h
      · exact absurd (mem_singleton.mp h).symm (silent i m)
    | decided h =>
      rcases mem_append.mp h with h | h
      · exact .decided h
      · rw [← mem_singleton.mp h] at moved
        cases moved
  · simp [moving, Engine.enqueue, moved]

theorem fatal (e : Engine) (err : FatalError) : Inner e (e.fatal err) := by
  unfold Engine.fatal
  split
  · exact refl e
  · refine { refl e with reports := ?_, alive := fun ok => ?_ }
    · intro i m reported
      cases reported with
      | delivered h => exact .delivered h
      | queued h => cases mem_singleton.mp h
      | decided h => cases mem_singleton.mp h
    · simp [failed] at ok

theorem panic (e : Engine) : Inner e e.panic := by
  refine { refl e with reports := ?_, alive := fun ok => ?_ }
  · intro i m reported
    cases reported with
    | delivered h => exact .delivered h
    | queued h => cases h
    | decided h => cases h
  · simp [failed, Engine.panic] at ok

theorem windowObserved (e : Engine) (s : UInt32) (base : ParentID) :
    Inner e (e.windowObserved cfg s base) := by
  refine trans ?_ (enqueue _ rfl (by simp))
  split
  · exact { refl e with reports := reports_of_eq rfl rfl }
  · exact refl e

theorem announceWindow (e : Engine) : Inner e (e.announceWindow cfg) := by
  unfold Engine.announceWindow
  dsimp only
  split
  · exact refl e
  · split
    · exact (pool e _).trans (fatal _ _)
    · have saved (e : Engine) (j : Journal) (same : j.voteSaves = e.journal.voteSaves ∧
          j.certSaves = e.journal.certSaves ∧ j.certs = e.journal.certs) :
          Inner e { e with journal := j } :=
        { refl e with
          reports := reports_of_eq rfl rfl
          voteSaves := same.1
          certSaves := same.2.1
          certs := same.2.2 }
      exact (pool e _).trans ((windowObserved _ _ _).trans (saved _ _ ⟨rfl, rfl, rfl⟩))

theorem advancePresent (e : Engine) : Inner e (e.advancePresent cfg) := by
  unfold Engine.advancePresent
  dsimp only
  split
  · exact refl e
  · split
    · exact (pool e _).trans (announceWindow _)
    · exact (pool e _).trans (fatal _ _)

theorem notify (e : Engine) (d d' : Deferred) (moved : d.moved? = none) (moved' : d'.moved? = none)
    (silent : ∀ i m, d ≠ .onMisbehavior i m) (silent' : ∀ i m, d' ≠ .onMisbehavior i m)
    (voter : Bool) : Inner e (if voter then (e.enqueue d).enqueue d' else e.enqueue d) := by
  have first := enqueue e moved silent
  split
  · exact first.trans (enqueue _ moved' silent')
  · exact first

theorem finalizeSlot (e : Engine) (cert : Certificate) : Inner e (e.finalizeSlot cfg cert) := by
  have queued := notify (e.recordFinal cert) (.onFinalized cert.vote.id cert)
    (.voterFinalizationObserved cert.vote.id) rfl rfl (by simp) (by simp) cfg.hasVoter
  have recorded : Inner e (e.recordFinal cert) := pool e _
  unfold Engine.finalizeSlot
  dsimp only
  generalize (if cfg.hasVoter then _ else _ : Engine) = e₁ at queued
  have swept (e : Engine) : Inner e (e.sweepFinal cert.vote.id.slot) :=
    { refl e with reports := reports_of_eq rfl rfl }
  refine (recorded.trans queued).trans (trans ?_ (swept _))
  split
  · exact (pool e₁ _).trans (advancePresent _)
  · exact refl e₁

theorem certTransition (e : Engine) (slot : PoolSlot) (cert : Certificate) :
    Inner e (e.certTransition cfg slot cert) := by
  unfold Engine.certTransition
  split
  · have queued := notify e (.onNotarized cert.vote.id cert)
      (.voterNotarizationObserved cert.vote.id) rfl rfl (by simp) (by simp) cfg.hasVoter
    unfold onNotarCertificate
    dsimp only
    generalize (if cfg.hasVoter then _ else _ : Engine) = e₁ at queued
    split
    · exact queued.trans (panic _)
    · exact queued.trans (fatal _ _)
    · exact queued.trans ((pool e₁ _).trans (advancePresent _))
  · unfold onSkipCertificate
    dsimp only
    split
    · exact panic e
    · exact fatal e _
    · refine trans ?_ (advancePresent _)
      split
      · exact (pool e _).trans (pool _ _)
      · exact pool e _
  · unfold onFinalCertificate
    dsimp only
    split
    · exact fatal e _
    · split
      · exact fatal e _
      · split
        · exact finalizeSlot e cert
        · split
          · exact panic e
          · exact fatal e _
          · exact (pool e _).trans (finalizeSlot _ cert)

end Inner

/-! ## What parent waits leave alone -/

/-- Candidates wait and are moved on: the pool stays and no window is announced. A failure drops
queued windows. -/
structure Settles (e e' : Engine) : Prop extends SameBooks e e' where
  pool : e'.pool = e.pool := by rfl
  windows : e'.windows.Sublist e.windows := by exact .refl _
  failed : e.failed = true → e'.failed = true := by exact fun h => h
  errors : ∀ err, e'.fatalErr = some err → e.fatalErr = some err ∨ e.failed = false ∧
    err = .noRunEnd ∧ ∃ c, e.pool.evaluateParentWait c = .noRunEnd := by exact fun _ h => .inl h

namespace Settles

variable {cfg : Config} {e e' e'' : Engine}

theorem refl (e : Engine) : Settles e e := {}

theorem trans (h : Settles e e') (h' : Settles e' e'') : Settles e e'' where
  toSameBooks := h.toSameBooks.trans h'.toSameBooks
  pool := h'.pool.trans h.pool
  windows := h'.windows.trans h.windows
  failed dead := h'.failed (h.failed dead)
  errors err herr := by
    rcases h'.errors err herr with earlier | ⟨ok, eq, c, stuck⟩
    · exact h.errors err earlier
    · refine .inr ⟨Bool.eq_false_of_not_eq_true fun dead => ?_, eq, c, h.pool ▸ stuck⟩
      rw [h.failed dead] at ok
      cases ok

theorem emit (plain : ev.window? = none) : Settles e (e.emit ev) :=
  { refl e with windows := by simp [Engine.windows, Engine.emit, plain] }

theorem enqueue (plain : d.window? = none) : Settles e (e.enqueue d) :=
  { refl e with windows := by simp [Engine.windows, Engine.enqueue, plain] }

theorem parentWaitDecided {c : Candidate} {r : ParentWait} (eq : e.pool.evaluateParentWait c = r) :
    Settles e (e.parentWaitDecided c r) := by
  unfold Engine.parentWaitDecided
  split
  · exact refl e
  · have failed : Settles e (e.fatal .noRunEnd) := by
      unfold Engine.fatal
      split
      · exact refl e
      next alive =>
        exact
          { refl e with
            windows := by simp [Engine.windows, Deferred.window?]
            failed := fun _ => rfl
            errors := fun _ herr =>
              .inr ⟨by simpa using alive, (Option.some.inj herr).symm, c, eq⟩ }
    exact failed.trans (enqueue rfl)
  · exact (emit rfl).trans (enqueue rfl)
  · exact enqueue rfl

theorem resolveLoop (n i : Nat) (e : Engine) : Settles e (Engine.resolveLoop n i e) := by
  induction n generalizing i e with
  | zero => exact refl e
  | succ n ih =>
    unfold Engine.resolveLoop
    split
    · exact refl e
    · split
      · exact ih _ _
      · have left (l : List Candidate) : Settles e { e with parentWaits := l } := { refl e with }
        exact (left _).trans ((parentWaitDecided rfl).trans (ih _ _))

theorem registerParentWait (e : Engine) (c : Candidate) : Settles e (e.registerParentWait c) := by
  unfold Engine.registerParentWait
  split
  · exact { refl e with }
  · exact parentWaitDecided rfl

theorem acceptCandidate (e : Engine) (c : Candidate) : Settles e (e.acceptCandidate cfg c) := by
  have noted (slot : VoterSlot) : Settles e (e.setVoterSlot c.id.slot slot) := { refl e with }
  unfold Engine.acceptCandidate
  dsimp only
  split
  · exact refl e
  · split
    · exact refl e
    · split
      · exact refl e
      · have told (e : Engine) : Settles e ((e.emit (.submitted c)).enqueue (.storeCandidate c)) :=
          (emit rfl).trans (enqueue rfl)
        exact ((noted _).trans (told _)).trans (registerParentWait _ c)

theorem onParentWaitDone (e : Engine) (c : Candidate) (out : ParentWaitOutcome) :
    Settles e (e.onParentWaitDone cfg c out) := by
  have noted (slot : VoterSlot) : Settles e (e.setVoterSlot c.id.slot slot) := { refl e with }
  unfold Engine.onParentWaitDone
  split
  · exact refl e
  · split
    · exact enqueue rfl
    · exact refl e
    · exact refl e
    · split
      · exact refl e
      · split
        · exact refl e
        · exact (noted _).trans (enqueue rfl)

end Settles

/-- Storing a certificate is an inner change, and may let parent waits resolve. -/
theorem storeSavedCertificate_inner (cfg : Config) (e : Engine) (slot : PoolSlot)
    (cert : Certificate) : ∃ e', Inner e e' ∧ (e.storeSavedCertificate cfg slot cert = e' ∨
      e.storeSavedCertificate cfg slot cert = e'.resolveParentWaits) := by
  unfold storeSavedCertificate
  dsimp only
  split
  · exact ⟨_, .fatal e _, .inl rfl⟩
  · have loud : Inner e (if e.suppressCertBroadcast then e
        else e.emit (.broadcastToRandom (.certificate cert))) := by
      split
      · exact .refl e
      · exact .emit e (by simp) rfl
    generalize (if e.suppressCertBroadcast then _ else _ : Engine) = e₁ at loud
    have set : Inner e₁ (e₁.setSlot cert.vote.slot (slot.setCert cert)) := .pool e₁ _
    have stored (e : Engine) : Inner e (e.emit (.certStored cert)) := .emit e (by simp) rfl
    have moved (e : Engine) : Inner e (e.certTransition cfg (slot.setCert cert) cert) :=
      .certTransition e _ _
    refine ⟨_, loud.trans (set.trans ((stored _).trans (moved _))), ?_⟩
    split
    · exact .inl rfl
    · exact .inr rfl

namespace SameBooks

variable {cfg : Config}

theorem storeSavedCertificate (e : Engine) (slot : PoolSlot) (cert : Certificate) :
    SameBooks e (e.storeSavedCertificate cfg slot cert) := by
  obtain ⟨e', inner, eq | eq⟩ := storeSavedCertificate_inner cfg e slot cert
  · exact eq ▸ inner.toSameBooks
  · exact eq ▸ inner.toSameBooks.trans (Settles.resolveLoop _ _ _).toSameBooks

theorem finishCertificateSave (e : Engine) (cert : Certificate) (res : SaveResult) :
    SameBooks e (e.finishCertificateSave cfg cert res) := by
  apply finishCertificateSave_keep (P := SameBooks e) (R := fun e₁ _ => SameBooks e e₁)
  · exact refl e
  · exact (Inner.fatal e _).toSameBooks
  · exact fun _ _ => refl e
  · exact fun _ _ _ _ same _ _ => same.trans { refl _ with }
  · exact fun _ _ _ same _ => same
  · intro e₁ slot same _ _
    have set : SameBooks e₁ (e₁.setSlot cert.vote.slot slot) := { refl e₁ with }
    exact same.trans (set.trans (storeSavedCertificate _ _ _))

end SameBooks

/-! ## Plain changes -/

/-- The pool, the waiting candidates and the failure stay; saves may be answered, buffered votes
dropped and hooks called. -/
structure Plain (e e' : Engine) : Prop where
  pool : e'.pool = e.pool := by rfl
  parentWaits : e'.parentWaits = e.parentWaits := by rfl
  fatalErr : e'.fatalErr = e.fatalErr := by rfl
  stopped : e'.stopped = e.stopped := by rfl
  panicked : e'.panicked = e.panicked := by rfl
  windows : e'.windows = e.windows := by rfl
  submissions : e'.submissions = e.submissions := by rfl
  moving : e'.moving = e.moving := by rfl
  reports : ∀ i m, e'.Reports i m → e.Reports i m := by exact Inner.reports_of_eq rfl rfl
  certs : e'.journal.certs.map CertRecord.cert = e.journal.certs.map CertRecord.cert := by rfl
  certSaves : e'.journal.certSaves ⊆ e.journal.certSaves := by exact List.Subset.refl _
  voteSaves : e'.journal.voteSaves ⊆ e.journal.voteSaves := by exact List.Subset.refl _
  pendingVerify : e'.pendingVerify ⊆ e.pendingVerify := by exact List.Subset.refl _

namespace Plain

variable {e e' : Engine}

theorem refl (e : Engine) : Plain e e := {}

theorem failed (h : Plain e e') : e'.failed = e.failed := by
  unfold Engine.failed
  rw [h.fatalErr, h.stopped, h.panicked]

/-- Clocks, timers, bans, callbacks and the voter do not count. -/
theorem outside (e : Engine) {params clock started loud seen bans standstillAt drain voter stores
    validates saves} : Plain e { e with
      params := params, clock := clock, started := started, suppressCertBroadcast := loud
      seenBroadcasts := seen, bans := bans, standstillAt := standstillAt, drain := drain
      voter := voter, storeCallbacks := stores, validateCallbacks := validates
      journal := { e.journal with windowSaves := saves } } :=
  { refl e with reports := Inner.reports_of_eq rfl rfl }

theorem voter (e : Engine) (v : Voter) : Plain e { e with voter := v } := outside e

theorem setVoterSlot (e : Engine) (s : UInt32) (slot : VoterSlot) :
    Plain e (e.setVoterSlot s slot) := outside e

theorem emit (e : Engine) (h : ev.plain = true) : Plain e (e.emit ev) := by
  have window : ev.window? = none := by cases ev <;> first | rfl | cases h
  have submitted : ev.submitted? = none := by cases ev <;> first | rfl | cases h
  refine { refl e with windows := ?_, submissions := ?_, reports := Inner.reports_emit ?_ }
  · simp [Engine.windows, Engine.emit, window]
  · simp [Engine.submissions, Engine.emit, submitted]
  · rintro i m rfl
    cases h

theorem pop (queue : e.pending = d :: ds)
    (h : d.plain = true) : Plain e { e with pending := ds } := by
  have window : d.window? = none := by cases d <;> first | rfl | cases h
  have moved : d.moved? = none := by cases d <;> first | rfl | cases h
  refine { refl e with windows := ?_, moving := ?_, reports := Inner.reports_pop queue }
  · simp [Engine.windows, queue, window]
  · simp [Engine.moving, queue, moved]

theorem deliverWindow {w : Window} (queue : e.pending = .handleWindow w :: ds) :
    Plain e ({ e with pending := ds }.emit (.handleWindow w)) := by
  refine { refl e with windows := ?_, moving := ?_, reports := ?_ }
  · simp [Engine.windows, Engine.emit, queue, Event.window?, Deferred.window?]
  · unfold Engine.moving; rw [queue]; rfl
  · exact fun i m h => Inner.reports_pop queue i m (Inner.reports_emit (by simp) i m h)

theorem deliverReport {idx : Nat} {r : Misbehavior}
    (queue : e.pending = .onMisbehavior idx r :: ds) :
    Plain e ({ e with pending := ds }.emit (.onMisbehavior idx r)) := by
  refine { refl e with windows := ?_, moving := ?_, reports := ?_ }
  · unfold Engine.windows; rw [queue]; rfl
  · unfold Engine.moving; rw [queue]; rfl
  · intro i m reported
    cases reported with
    | delivered mem =>
      rcases mem_cons.mp mem with eq | mem
      · cases eq
        exact .queued (queue ▸ mem_cons_self)
      · exact .delivered mem
    | queued mem => exact Inner.reports_pop queue _ _ (.queued mem)
    | decided mem => exact Inner.reports_pop queue _ _ (.decided mem)

theorem answerVote (e : Engine) (v : Vote) (ok : Bool) : Plain e (e.answerVote v ok) := by
  unfold Engine.answerVote
  split
  · exact { refl e with voteSaves := erase_subset, reports := Inner.reports_of_eq rfl rfl }
  · exact { refl e with voteSaves := erase_subset, reports := Inner.reports_of_eq rfl rfl }

theorem answerCert (e : Engine) (save : CertSave) (res : SaveResult) :
    Plain e (e.answerCert save res) := by
  unfold Engine.answerCert
  dsimp only
  split
  · refine { refl e with
      certSaves := erase_subset, certs := ?_, reports := Inner.reports_of_eq rfl rfl }
    rw [Journal.certDurable, map_map]
    refine map_congr_left fun r _ => ?_
    dsimp only [Function.comp]
    split <;> rfl
  · exact { refl e with certSaves := erase_subset, reports := Inner.reports_of_eq rfl rfl }

end Plain

/-! ## Ticks -/

/-- What a transition may act on. -/
structure Grant where
  /-- Own votes whose intent is durable. -/
  own : Vote → Prop
  /-- Buffered votes of others. -/
  inbox : PendingVote → Prop
  /-- Votes being delivered. -/
  arrives : PendingVote → Prop
  /-- Certificates being delivered. -/
  receives : Certificate → Prop
  /-- Certificates the journal holds. -/
  cert : Certificate → Prop
  /-- The session may begin. -/
  opening : Prop
  /-- Queued decisions may be delivered. -/
  deliver : Prop
  /-- A candidate may be accepted. -/
  submit : Prop

/-- A vote comes with a signature made here or checked here. -/
def Signed (cfg : Config) (g : Grant) (idx : Nat) (v : Vote) (sig : Signature) : Prop :=
  (g.own v ∧ cfg.localIndex = some idx ∧ ∃ n, cfg.sign n (cfg.votePayload v) = some sig) ∨
    (∃ src, g.inbox ⟨src, idx, v, sig⟩) ∧ cfg.verifyVote idx v sig = true

inductive Tick (cfg : Config) (g : Grant) (e : Engine) : Engine → Prop where
  | plain {e' : Engine} (h : Plain e e') : Tick cfg g e e'
  | fatal {err : FatalError} (harmless : err.isPresent = false) (other : err ≠ .noRunEnd) :
      Tick cfg g e (e.fatal err)
  | stop : Tick cfg g e e.stop
  | receive {p : PendingVote} (decoded : p.vote.decoded = p.vote) (arrives : g.arrives p)
      (member : p.idx < cfg.validators.length) :
      Tick cfg g e { e with pendingVerify := e.pendingVerify ++ [p] }
  | cast {v : Vote} (decoded : v.decoded = v) :
      Tick cfg g e { e with journal := e.journal.saveOurVote v }
  | apply {idx : Nat} {v : Vote} {sig : Signature} (tolerate : Bool) (ok : e.failed = false)
      (signed : Signed cfg g idx v sig) : Tick cfg g e (e.applyVote cfg idx v sig tolerate).1
  | save {cert : Certificate} (received : g.receives cert)
      (valid : cfg.verifyCertificate cert = .ok ()) : Tick cfg g e (e.handleCertificate cert)
  | accept {c₀ c : Candidate} (submit : g.submit) (admitted : cfg.checkCandidate c₀ = .ok c)
      (ok : e.failed = false) : Tick cfg g e (e.acceptCandidate cfg c)
  | moveOn {c : Candidate} {out : ParentWaitOutcome} {ds : List Deferred} (deliver : g.deliver)
      (queue : e.pending = .onParentWaitDone c out :: ds) :
      Tick cfg g e ({ e with pending := ds }.onParentWaitDone cfg c out)
  | finish {cert : Certificate} (res : SaveResult) (ok : e.failed = false) (held : g.cert cert) :
      Tick cfg g e (e.finishCertificateSave cfg cert res)
  | store {cert : Certificate} {slot : PoolSlot} (ok : e.failed = false) (held : g.cert cert)
      (here : e.pool.slots.get? cert.vote.slot = some slot) (needs : slot.needs cert.vote = true) :
      Tick cfg g e (e.storeSavedCertificate cfg slot cert)
  | advance (opening : g.opening) : Tick cfg g e (e.advancePresent cfg)

def Ticks (cfg : Config) (g : Grant) : Engine → Engine → Prop := Relation.ReflTransGen (Tick cfg g)

namespace Ticks

variable {cfg : Config} {g : Grant} {e e' e'' : Engine}

theorem refl : Ticks cfg g e e := Relation.ReflTransGen.refl

theorem trans (h : Ticks cfg g e e') (h' : Ticks cfg g e' e'') : Ticks cfg g e e'' :=
  Relation.ReflTransGen.trans h h'

theorem tick (h : Tick cfg g e e') : Ticks cfg g e e' := Relation.ReflTransGen.single h

theorem plain (h : Plain e e') : Ticks cfg g e e' := tick (.plain h)

theorem keep {P : Engine → Prop} (step : ∀ {a b : Engine}, P a → Tick cfg g a b → P b)
    (h : Ticks cfg g e e') (first : P e) : P e' := by
  induction h with
  | refl => exact first
  | tail _ tick ih => exact step ih tick

theorem foldl {α : Type} {f : Engine → α → Engine} (l : List α)
    (step : ∀ e, ∀ a ∈ l, Ticks cfg g e (f e a)) (e : Engine) : Ticks cfg g e (l.foldl f e) := by
  induction l generalizing e with
  | nil => exact refl
  | cons a l ih =>
    exact (step e a mem_cons_self).trans
      (ih (fun e a ha => step e a (mem_cons_of_mem _ ha)) _)

end Ticks

section

variable {cfg : Config} {g : Grant} (e : Engine)

/-! ## Inputs

`step` for any use of the engine an input leaves behind, whether the input is refused or served
and its notifications are still to be delivered. -/

section

variable {α : Type} (refused served : Engine → α)

def runWith (e : Engine) (action : Engine → Engine) : α :=
  if !e.started || e.failed then refused e else served (action e)

def completeWith (e : Engine) (action : Engine → Engine) : α :=
  if e.failed then refused e else served (action e)

def stepWith (cfg : Config) (e : Engine) (t : Time) (input : Input) : α :=
  let e := { e with clock := t }
  match input with
  | .message src srcValidator m =>
    runWith refused served e fun e => e.handleMessage cfg src srcValidator m
  | .flushVerify => runWith refused served e fun e => e.flushVerify cfg
  | .submitCandidate c => runWith refused served e fun e => e.submitCandidate cfg c
  | .precheckBroadcast slot id checked =>
    match e.precheckCandidateBroadcast cfg slot id checked with
    | .ok e' => refused e'
    | .error _ => refused e
  | .storeDone id ok =>
    if id ∈ e.storeCallbacks then
      runWith refused served { e with storeCallbacks := e.storeCallbacks.erase id } fun e =>
        e.completeStore cfg id ok
    else refused e
  | .validateDone id accepted =>
    if id ∈ e.validateCallbacks then
      runWith refused served { e with validateCallbacks := e.validateCallbacks.erase id } fun e =>
        e.completeValidation cfg id accepted
    else refused e
  | .advance sends => runWith refused served e fun e => e.advance cfg sends
  | .voteSaved v ok =>
    if v ∈ e.journal.voteSaves then
      completeWith refused served (e.answerVote v ok) fun e =>
        if ok then e.finishVoteCast cfg v false else e.fatal (.voteJournal v)
    else refused e
  | .certSaved cert res =>
    let save : CertSave := ⟨cert, res = .alreadySaved⟩
    if save ∈ e.journal.certSaves then
      completeWith refused served (e.answerCert save res) fun e =>
        e.finishCertificateSave cfg cert res
    else refused e
  | .windowSaved ok =>
    if e.journal.windowSaves = 0 then refused e
    else
      let e := { e with journal := { e.journal with windowSaves := e.journal.windowSaves - 1 } }
      if ok then refused e
      else completeWith refused served e fun e => e.fatal .poolStateJournal
  | .updateParams p => refused { e with params := p }
  | .stop => refused e.stop

end

theorem step_eq_stepWith (t : Time) (input : Input) :
    e.step cfg t input = e.stepWith id (fun e => e.drainPending cfg) cfg t input := by
  cases input <;> rfl

/-- The engine an input leaves behind before its notifications are delivered. -/
def serve (cfg : Config) (e : Engine) (t : Time) (input : Input) : Engine :=
  e.stepWith id id cfg t input

/-- A use of the engine is refused, with nothing queued, or served. -/
def Dispatched (e : Engine) (use : ∀ {α : Type}, (Engine → α) → (Engine → α) → α) : Prop :=
  ((use id id).pending ⊆ e.pending ∧
    ∀ {α : Type} (refused served : Engine → α), use refused served = refused (use id id)) ∨
  ∀ {α : Type} (refused served : Engine → α), use refused served = served (use id id)

/-- Whether an input is served depends on the engine and the input only; a refused one queues
nothing. -/
theorem stepWith_cases (t : Time) (input : Input) :
    ((e.serve cfg t input).pending ⊆ e.pending ∧
      ∀ {α : Type} (refused served : Engine → α),
        e.stepWith refused served cfg t input = refused (e.serve cfg t input)) ∨
    ∀ {α : Type} (refused served : Engine → α),
      e.stepWith refused served cfg t input = served (e.serve cfg t input) := by
  change e.Dispatched fun refused served => e.stepWith refused served cfg t input
  have refused {e' : Engine} (queued : e'.pending ⊆ e.pending) :
      e.Dispatched fun refused _ => refused e' := .inl ⟨queued, fun _ _ => rfl⟩
  have ran (e₁ : Engine) (same : e₁.pending = e.pending) (action : Engine → Engine) :
      e.Dispatched fun refused served => runWith refused served e₁ action := by
    unfold Dispatched runWith
    split
    · exact .inl ⟨same ▸ List.Subset.refl _, fun _ _ => rfl⟩
    · exact .inr fun _ _ => rfl
  have completed (e₁ : Engine) (same : e₁.pending = e.pending) (action : Engine → Engine) :
      e.Dispatched fun refused served => completeWith refused served e₁ action := by
    unfold Dispatched completeWith
    split
    · exact .inl ⟨same ▸ List.Subset.refl _, fun _ _ => rfl⟩
    · exact .inr fun _ _ => rfl
  have same : ({ e with clock := t } : Engine).pending ⊆ e.pending := List.Subset.refl _
  unfold stepWith
  cases input with
  | message | flushVerify | submitCandidate | advance => exact ran _ (by rfl) _
  | precheckBroadcast slot id checked =>
    dsimp only
    split
    next checked =>
      refine refused ?_
      unfold precheckCandidateBroadcast at checked
      repeat' split at checked
      all_goals cases checked
      · exact same
      · exact same
    · exact refused same
  | storeDone | validateDone =>
    dsimp only
    split
    · exact ran _ (by rfl) _
    · exact refused same
  | voteSaved | certSaved =>
    dsimp only
    split
    · exact completed _ (by rfl) _
    · exact refused same
  | windowSaved ok =>
    dsimp only
    split
    · exact refused same
    · split
      · exact refused same
      · exact completed _ (by rfl) _
  | updateParams p => exact refused same
  | stop => exact refused (nil_subset _)

/-- What one input hands to the engine. -/
def hands (e : Engine) (input : Input) : Grant where
  own v := ∃ ok, input = .voteSaved v ok ∧ v ∈ e.journal.voteSaves
  inbox p := p ∈ e.pendingVerify
  arrives p := ∃ v, p.vote = v.decoded ∧ input = .message p.src (some p.idx) (.vote v p.sig)
  receives c := ∃ src from_ d, c = { d with vote := d.vote.decoded } ∧
    input = .message src from_ (.certificate d)
  cert c := ∃ res, input = .certSaved c res ∧
    (⟨c, res = .alreadySaved⟩ : CertSave) ∈ e.journal.certSaves
  opening := False
  deliver := True
  submit := ∃ c, input = .submitCandidate c

end

end Engine

end Gton.Simplex
