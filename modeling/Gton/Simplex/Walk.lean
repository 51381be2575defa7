import Gton.Simplex.Refine
import Gton.Simplex.Ticks

/-!
# One walk through the engine

Every function of the voter and the engine is a sequence of moves of the view and a sequence of
ticks. One lemma per function says both.
-/

namespace Gton.Simplex

theorem CastRule.decoded {s : UInt32} {slot slot' : VoterSlot} {b : Vote}
    (h : CastRule s slot b slot') : b.decoded = b := by
  cases h <;> rfl

namespace Engine

def Grant.all : Grant :=
  ⟨fun _ => True, fun _ => True, fun _ => True, fun _ => True, fun _ => True, True, True, True⟩

/-- A sequence of moves that is a sequence of ticks. -/
structure Walks (cfg : Config) (ctx : Ctx) (g : Grant) (e e' : Engine) : Prop where
  refines : Refines cfg ctx e e'
  ticks : Ticks cfg g e e'

variable {cfg : Config} {ctx : Ctx} {g : Grant} {e e' e'' : Engine} {b : Vote} {s : UInt32}
  {slot slot' : VoterSlot} {rest : List Deferred} {action : Engine → Engine}

namespace Walks

theorem refl : Walks cfg ctx g e e := ⟨.refl, .refl⟩

theorem trans (h : Walks cfg ctx g e e') (h' : Walks cfg ctx g e' e'') : Walks cfg ctx g e e'' :=
  ⟨h.refines.trans h'.refines, h.ticks.trans h'.ticks⟩

theorem quiet (h : e.view.Quiet e'.view) (h' : Plain e e') : Walks cfg ctx g e e' :=
  ⟨.quiet h, .plain h'⟩

theorem fatal {err : FatalError} (calm : err.isConflict = false) (harmless : err.isPresent = false)
    (other : err ≠ .noRunEnd) : Walks cfg ctx g e (e.fatal err) :=
  ⟨.quiet (fatal_quiet e calm), .tick (.fatal harmless other)⟩

theorem foldl {α : Type} {f : Engine → α → Engine} (l : List α)
    (step : ∀ e, ∀ a ∈ l, Walks cfg ctx g e (f e a)) (e : Engine) :
    Walks cfg ctx g e (l.foldl f e) :=
  ⟨.foldl l (fun e a ha => (step e a ha).refines) e, .foldl l (fun e a ha => (step e a ha).ticks) e⟩

end Walks

/-! ## Own votes -/

theorem finishVoteCast_walks {replay : Bool} (acked : ctx.acked b) (own : g.own b)
    (ok : e.failed = false) : Walks cfg ctx g e (e.finishVoteCast cfg b replay) := by
  unfold finishVoteCast
  dsimp only
  split
  · exact .refl
  next idx here =>
    have signed : Walks cfg ctx g e (e.emit (.sign b)) :=
      ⟨.move (.sign acked ok), .plain (.emit e rfl)⟩
    refine signed.trans ?_
    split
    · exact .fatal rfl rfl (by simp)
    next sig hsig =>
      have applied : Walks cfg ctx g (e.emit (.sign b))
          ((e.emit (.sign b)).applyVote cfg idx b sig replay).1 :=
        ⟨applyVote_refines (.inl ⟨here, acked, List.mem_cons_self⟩) ok,
          .tick (.apply replay ok (.inl ⟨own, here, _, hsig⟩))⟩
      split
      next sent =>
        exact applied.trans ⟨.move (.send (applyVote_applied here sent.1)), .plain (.emit _ rfl)⟩
      · exact applied

theorem replayVote_walks (acked : ctx.acked b) (own : g.own b) :
    Walks cfg ctx g e (e.replayVote cfg b) := by
  unfold replayVote
  split
  · exact .refl
  · unfold castVote
    split
    · exact .refl
    next ok =>
      simp only [Bool.or_eq_true, not_or, Bool.not_eq_true] at ok
      exact finishVoteCast_walks acked own ok.1

theorem replayVote_refines (acked : ctx.acked b) : Refines cfg ctx e (e.replayVote cfg b) :=
  (replayVote_walks (g := .all) acked trivial).refines

theorem replayVote_ticks (e : Engine) (own : g.own b) : Ticks cfg g e (e.replayVote cfg b) := by
  have walks : Walks cfg { Ctx.nothing with acked := fun _ => True } g e (e.replayVote cfg b) :=
    replayVote_walks trivial own
  exact walks.ticks

theorem castVote_ticks (decoded : b.decoded = b) : Ticks cfg g e (e.castVote cfg b false) := by
  unfold castVote
  split
  · exact .refl
  · have saved : Ticks cfg g e { e with journal := e.journal.saveOurVote b } :=
      .tick (.cast decoded)
    exact saved.trans (.plain (.emit _ rfl))

theorem startupSkip_ticks (e : Engine) (i : UInt32) : Ticks cfg g e (startupSkip cfg e i) := by
  unfold startupSkip
  split
  · exact .refl
  · split
    · exact .refl
    · exact castVote_ticks rfl

theorem castStartupWindowSkips_ticks (e : Engine) : Ticks cfg g e (e.castStartupWindowSkips cfg) :=
  .foldl _ (fun e i _ => startupSkip_ticks e i) e

theorem cast_walks (h : e.voter.slots.get? s = some slot) (rule : CastRule s slot b slot') :
    Walks cfg ctx g e ((e.setVoterSlot s slot').castVote cfg b false) :=
  ⟨cast_refines h rule,
    (Ticks.plain (.setVoterSlot e s slot')).trans (castVote_ticks rule.decoded)⟩

theorem tryVoteFinal_walks (h : e.voter.slots.get? s = some slot)
    (here : ∀ id, slot.votedNotar = some id → slot.notarCert = some id → id.slot = s) :
    Walks cfg ctx g e (e.tryVoteFinal cfg s slot) := by
  unfold tryVoteFinal
  split
  · exact .refl
  next id hid =>
    split
    next guard =>
      rw [castVote_setVoterSlot]
      exact cast_walks h (.finalize (here id hid guard.2.2) hid (by simpa using guard.1)
        (by simpa using guard.2.1) guard.2.2)
    · exact .refl

theorem maybeVoteNotar_walks {id : CandidateID} (h : e.voter.slots.get? id.slot = some slot)
    (pending : slot.pending.map Candidate.id = some id) :
    Walks cfg ctx g e (e.maybeVoteNotar cfg id slot) := by
  unfold maybeVoteNotar
  split
  · exact .refl
  next guard =>
    simp only [Bool.or_eq_true, Bool.not_eq_true', not_or, Bool.not_eq_false,
      Bool.not_eq_true, Option.isSome_eq_false_iff,
      Option.isNone_iff_eq_none] at guard
    refine .trans (cast_walks h (.notarize rfl pending guard.1.1 guard.1.2 guard.2))
      (tryVoteFinal_walks ?_ ?_)
    · rw [castVote_voter]
      exact SlotMap.get?_set_self (SlotMap.le_of_get? h)
    · rintro id' h' -
      cases h'
      rfl

/-! ## Queued notifications -/

theorem voterNotarizationObserved_walks {id : CandidateID}
    (queued : e.pending = .voterNotarizationObserved id :: rest) :
    Walks cfg ctx g e ({ e with pending := rest }.voterNotarizationObserved cfg id) := by
  unfold voterNotarizationObserved
  dsimp only
  split
  · exact .quiet (pop_quiet queued) (.pop queued rfl)
  next slot h =>
    have live := SlotMap.le_of_get? h
    generalize hv : (if e.voter.timeoutSlot ≤ id.slot + 1 then _ else _ : Voter) = v
    have slots : v.slots = e.voter.slots := by
      rw [← hv]
      split <;> rfl
    have observed : Walks cfg ctx g e ({ e with pending := rest, voter := v }.setVoterSlot id.slot
        { slot with notarCert := some id }) := by
      refine ⟨.move ?_, (Ticks.plain (.pop queued rfl)).trans (.plain (.voter _ _))⟩
      rw [view_setVoterSlot (by rw [slots]; exact live)]
      have move : Move cfg ctx e.view _ := .observe queued live
      rw [view_voter h] at move
      convert move using 2
      unfold view
      rw [slots]
      rfl
    refine observed.trans (tryVoteFinal_walks ?_ ?_)
    · exact SlotMap.get?_set_self (by rw [slots]; exact live)
    · rintro id' - h'
      cases h'
      rfl

theorem runDeferred_walks {d : Deferred} (queued : e.pending = d :: rest)
    (deliver : d.moved? ≠ none → g.deliver) :
    Walks cfg ctx g e ({ e with pending := rest }.runDeferred cfg d) := by
  have popped := pop_quiet queued
  cases d with
  | onParentWaitDone c out =>
    exact ⟨onParentWaitDone_refines queued,
      .tick (.moveOn (deliver (by simp [Deferred.moved?])) queued)⟩
  | voterNotarizationObserved id => exact voterNotarizationObserved_walks queued
  | voterFinalizationObserved id =>
    exact ⟨voterFinalizationObserved_refines queued,
      (Ticks.plain (.pop queued rfl)).trans (.plain (.voter _ _))⟩
  | onFatal | onNotarized | onFinalized =>
    exact ⟨.quiet (popped.trans (emit_quiet _ rfl)),
      (Ticks.plain (.pop queued rfl)).trans (.plain (.emit _ rfl))⟩
  | handleWindow w => exact .quiet (popped.trans (emit_quiet _ rfl)) (.deliverWindow queued)
  | onMisbehavior idx m => exact .quiet (popped.trans (emit_quiet _ rfl)) (.deliverReport queued)
  | storeCandidate | validateCandidate =>
    exact ⟨.quiet (popped.trans (emit_quiet _ rfl)), (Ticks.plain (.pop queued rfl)).trans
      (Ticks.trans (.plain (.outside _)) (.plain (.emit _ rfl)))⟩

theorem drainLoop_walks (deliver : g.deliver) (n : Nat) (e : Engine) :
    Walks cfg ctx g e (e.drainLoop cfg n) := by
  induction n generalizing e with
  | zero => exact .refl
  | succ n ih =>
    unfold drainLoop
    split
    · exact .refl
    next queued =>
      exact (runDeferred_walks queued fun _ => deliver).trans (ih _)

theorem drainPending_walks (e : Engine) (deliver : g.deliver) :
    Walks cfg ctx g e (e.drainPending cfg) :=
  drainLoop_walks deliver _ e

theorem drainPending_refines (e : Engine) : Refines cfg ctx e (e.drainPending cfg) :=
  (drainPending_walks (g := .all) e trivial).refines

theorem drainPending_ticks (e : Engine) (deliver : g.deliver) :
    Ticks cfg g e (e.drainPending cfg) := by
  have walks : Walks cfg .nothing g e (e.drainPending cfg) := drainPending_walks e deliver
  exact walks.ticks

/-! ## Candidates and timers -/

theorem submitCandidate_walks (c : Candidate) (started : e.started = true) (submit : g.submit)
    (ok : e.failed = false) : Walks cfg ctx g e (e.submitCandidate cfg c) := by
  unfold submitCandidate
  split
  · exact .refl
  · split
    · exact .refl
    next admitted =>
      exact ⟨acceptCandidate_refines admitted started, .tick (.accept submit admitted ok)⟩

theorem completeValidation_walks (e : Engine) (id : CandidateID) (accepted : Bool) :
    Walks cfg ctx g e (e.completeValidation cfg id accepted) := by
  unfold completeValidation
  split
  · exact .refl
  · split
    · exact .refl
    next slot h =>
      split
      · exact .refl
      next guard =>
        simp only [not_or, not_not, Bool.not_eq_true', Bool.not_eq_false] at guard
        have live := SlotMap.le_of_get? h
        split
        · have move : Move cfg ctx e.view _ := .validated live
            (by rw [view_voter h]; exact guard.1) (by rw [view_voter h]; exact guard.2)
          rw [view_voter h, ← view_setVoterSlot live] at move
          have validated : Walks cfg ctx g e ((e.setVoterSlot id.slot
              { slot with validationInFlight := false, validated := true }).emit (.validated id)) :=
            ⟨.move move, (Ticks.plain (.setVoterSlot _ _ _)).trans (.plain (.emit _ rfl))⟩
          exact validated.trans (maybeVoteNotar_walks (SlotMap.get?_set_self live) guard.1)
        · have move : Move cfg ctx e.view _ :=
            .dropped (a := false) (b := slot.storeInFlight) live (by simp)
          rw [view_voter h, ← view_setVoterSlot live] at move
          exact ⟨.move move, .plain (.setVoterSlot _ _ _)⟩

theorem completeStore_walks (e : Engine) (id : CandidateID) (ok : Bool) :
    Walks cfg ctx g e (e.completeStore cfg id ok) := by
  unfold completeStore
  split
  · exact .refl
  · split
    · exact .refl
    next slot h =>
      split
      · exact .refl
      next guard =>
        simp only [not_or, not_not] at guard
        have live := SlotMap.le_of_get? h
        split
        · have move : Move cfg ctx e.view _ := .stored live (by rw [view_voter h]; exact guard.1)
          rw [view_voter h, ← view_setVoterSlot live] at move
          have stored : Walks cfg ctx g e ((e.setVoterSlot id.slot
              { slot with storeInFlight := false, stored := true }).emit (.stored id)) :=
            ⟨.move move, (Ticks.plain (.setVoterSlot _ _ _)).trans (.plain (.emit _ rfl))⟩
          exact stored.trans (maybeVoteNotar_walks (SlotMap.get?_set_self live) guard.1)
        · have move : Move cfg ctx e.view _ :=
            .dropped (a := slot.validationInFlight)
              (b := false) live (by rw [view_voter h]; exact fun h => h)
          rw [view_voter h, ← view_setVoterSlot live] at move
          have dropped : Walks cfg ctx g e
              (e.setVoterSlot id.slot { slot with storeInFlight := false }) :=
            ⟨.move move, .plain (.setVoterSlot _ _ _)⟩
          exact dropped.trans (.fatal rfl rfl (by simp))

theorem alarmSkip_walks (e : Engine) (i : UInt32) : Walks cfg ctx g e (alarmSkip cfg e i) := by
  unfold alarmSkip
  split
  · exact .refl
  next slot h =>
    split
    · exact .refl
    next notFinal =>
      rw [castVote_setVoterSlot]
      exact (cast_walks h (.skip (by simpa using notFinal))).trans (.quiet (.refl _) (.voter _ _))

theorem fireVoterAlarm_walks (e : Engine) : Walks cfg ctx g e (e.fireVoterAlarm cfg) := by
  have disarmed : Walks cfg ctx g e { e with voter := { e.voter with alarmArmed := false } } :=
    .quiet (.refl _) (.outside e)
  have moved (e : Engine) (s : UInt32) :
      Walks cfg ctx g e { e with voter := { e.voter with timeoutSlot := s } } :=
    .quiet (.refl _) (.outside e)
  exact disarmed.trans (.trans (.foldl _ (fun e i _ => alarmSkip_walks e i) _) (moved _ _))

/-! ## Standstill -/

theorem drainSends_walks (n : Nat) (d : Drain) (e : Engine) {d₀ : Drain}
    (h : e.drain = some d₀) (same : d.msgs = d₀.msgs) : Walks cfg ctx g e (drainSends n d e) := by
  induction n generalizing d e with
  | zero =>
    unfold drainSends
    refine .quiet { View.Quiet.refl e.view with drain := ?_ } (.outside e)
    simp only [view, h]
    split <;> simp [same]
  | succ n ih =>
    unfold drainSends
    split
    · exact .quiet { View.Quiet.refl e.view with drain := by simp [view] } (.outside e)
    next m hm =>
      have sent : Walks cfg ctx g e (e.emit (.broadcastToValidators m)) := by
        refine ⟨.move (.resend ?_), .plain (.emit e rfl)⟩
        simp only [view, h, Option.map_some, Option.getD_some, ← same]
        exact List.mem_of_getElem? hm
      exact sent.trans (ih { d with idx := d.idx + 1 } _ h same)

theorem stepDrain_walks (e : Engine) (sends : Nat) : Walks cfg ctx g e (e.stepDrain sends) := by
  unfold stepDrain
  split
  · exact .refl
  next d h =>
    split
    · exact .quiet { View.Quiet.refl e.view with drain := by simp [view] } (.outside e)
    · exact drainSends_walks sends d e h rfl

theorem fireStandstill_walks (e : Engine) (sends : Nat) :
    Walks cfg ctx g e (e.fireStandstill cfg sends) := by
  have armed : Walks cfg ctx g e e.rearmStandstill := .quiet (.refl _) (.outside e)
  unfold fireStandstill
  dsimp only
  generalize e.rearmStandstill = e₁ at armed ⊢
  split
  · exact armed
  · split
    · exact armed
    · have collected : Walks cfg ctx g e₁
          { e₁ with drain := some ⟨e₁.buildStandstillMessages cfg, 0, e₁.pool.lastFinalCert⟩ } :=
        ⟨.move (.standstill fun b sig h => mem_buildStandstillMessages h), .plain (.outside _)⟩
      exact armed.trans (collected.trans (stepDrain_walks _ sends))

/-! ## Messages -/

theorem flushVote_walks (tooNew : UInt32) {p : PendingVote} (mem : p ∈ e.pendingVerify)
    (here : g.inbox p) : Walks cfg ctx g e (flushVote cfg tooNew e p) := by
  unfold flushVote
  split
  · exact .refl
  next ok =>
    simp only [Bool.or_eq_true, not_or, Bool.not_eq_true] at ok
    split
    · exact .refl
    · split
      · exact .refl
      · split
        · split
          next valid =>
            exact ⟨applyVote_refines (.inr ⟨⟨p.src, mem⟩, valid⟩) ok.1,
              .tick (.apply false ok.1 (.inr ⟨⟨p.src, here⟩, valid⟩))⟩
          · exact .quiet (.refl _) (.outside e)
        · exact .refl

theorem flushVerify_walks (e : Engine) (here : ∀ p ∈ e.pendingVerify, g.inbox p) :
    Walks cfg ctx g e (e.flushVerify cfg) := by
  have flushed (l : List PendingVote) (e : Engine) (tooNew : UInt32) (sub : l ⊆ e.pendingVerify)
      (here : ∀ p ∈ l, g.inbox p) : Walks cfg ctx g e (l.foldl (flushVote cfg tooNew) e) := by
    induction l generalizing e with
    | nil => exact .refl
    | cons p l ih =>
      rw [List.forall_mem_cons] at here
      refine (flushVote_walks tooNew (sub List.mem_cons_self) here.1).trans (ih _ ?_ here.2)
      rw [flushVote_pendingVerify]
      exact fun _ h => sub (List.mem_cons_of_mem _ h)
  have emptied (e : Engine) : Walks cfg ctx g e { e with pendingVerify := [] } :=
    .quiet { inbox := by simp [view] } { pendingVerify := List.nil_subset _ }
  exact (flushed _ e _ (List.Subset.refl _) here).trans (emptied _)

theorem advance_walks (e : Engine) (sends : Nat) (here : ∀ p ∈ e.pendingVerify, g.inbox p) :
    Walks cfg ctx g e (e.advance cfg sends) := by
  have alarm (e : Engine) : Walks cfg ctx g e (e.alarmIfDue cfg) := by
    unfold alarmIfDue
    split
    · exact fireVoterAlarm_walks e
    · exact .refl
  have standstill (e : Engine) : Walks cfg ctx g e (e.standstillIfDue cfg sends) := by
    unfold standstillIfDue
    split
    · split
      · exact fireStandstill_walks e sends
      · exact .refl
    · exact .refl
  have fired : Walks cfg ctx g e _ :=
    (flushVerify_walks e here).trans ((alarm _).trans (standstill _))
  unfold advance
  dsimp only
  split
  · exact fired
  · exact fired.trans (stepDrain_walks _ _)

theorem handleMessage_walks {src : PeerID} {from_ : Option Nat} {m : Message}
    (arrived : ∀ p, m.votes from_ p → ctx.arrived p)
    (received : ∀ c, m.certifies c → ctx.received c)
    (arrives : ∀ idx v sig, from_ = some idx → m = .vote v sig →
      g.arrives ⟨src, idx, v.decoded, sig⟩)
    (receives : ∀ c, m = .certificate c → g.receives { c with vote := c.vote.decoded }) :
    Walks cfg ctx g e (e.handleMessage cfg src from_ m) := by
  have banned : Walks cfg ctx g e (e.ban src) := .quiet (.refl _) (.outside e)
  unfold handleMessage
  split
  · exact .refl
  · cases m with
    | malformed => exact .refl
    | vote v sig =>
      dsimp only
      unfold handleVote
      split
      · exact banned
      · split
        · exact banned
        next member =>
          split
          · exact .refl
          · split
            · exact .refl
            · split
              · exact ⟨.move (.buffer (arrived _ ⟨rfl, rfl, rfl⟩)), .tick (.receive
                  (Vote.decoded_decoded v) (arrives _ v sig rfl rfl) (Nat.not_le.mp member))⟩
              · exact .refl
    | certificate cert =>
      dsimp only
      unfold handleCertificateMessage
      split
      · exact .refl
      · split
        · exact banned
        next ok =>
          exact ⟨handleCertificate_refines (.inl ⟨received _ rfl, ok⟩),
            .tick (.save (receives _ rfl) ok)⟩

/-! ## One input -/

theorem runWith_walks (h : e.started = true → e.failed = false → Walks cfg ctx g e (action e)) :
    Walks cfg ctx g e (runWith id id e action) := by
  unfold runWith
  split
  · exact .refl
  next live =>
    simp only [Bool.or_eq_true, not_or, Bool.not_eq_true, Bool.not_eq_true', Bool.not_eq_false]
      at live
    exact h live.1 live.2

theorem completeWith_walks (h : e.failed = false → Walks cfg ctx g e (action e)) :
    Walks cfg ctx g e (completeWith id id e action) := by
  unfold completeWith
  split
  · exact .refl
  next live =>
    exact h (by simpa using live)

/-- What an input does once the journal has recorded the answer it carries. -/
theorem serve_walks (e : Engine) (deliver : Prop) (t : Time) (input : Input) :
    Walks cfg (e.grants input) { e.hands input with deliver }
      ({ e with clock := t }.answered input) (e.serve cfg t input) := by
  unfold serve stepWith
  change Walks cfg ({ e with clock := t }.grants input)
    { { e with clock := t }.hands input with deliver } _ _
  generalize ({ e with clock := t } : Engine) = e
  cases input with
  | message src from_ m =>
    refine runWith_walks fun _ _ => handleMessage_walks (fun _ h => h) (fun _ h => h) ?_ ?_
    · exact fun idx v sig from_ vote => ⟨v, rfl, by rw [from_, vote]⟩
    · exact fun c cert => ⟨src, from_, c, rfl, by rw [cert]⟩
  | flushVerify => exact runWith_walks fun _ _ => flushVerify_walks e fun _ hp => hp
  | submitCandidate c =>
    exact runWith_walks fun started ok => submitCandidate_walks c started ⟨c, rfl⟩ ok
  | precheckBroadcast slot id checked =>
    dsimp only [answered]
    unfold precheckCandidateBroadcast
    split
    next checked =>
      repeat' split at checked
      all_goals cases checked
      · exact .quiet (.refl _) (.outside e)
      · exact .refl
    · exact .refl
  | storeDone id ok =>
    dsimp only [answered]
    split
    · have used (l : List CandidateID) : Walks cfg (e.grants (.storeDone id ok))
          { e.hands (.storeDone id ok) with deliver } e { e with storeCallbacks := l } :=
        .quiet (.refl _) (.outside e)
      exact (used _).trans (runWith_walks fun _ _ => completeStore_walks _ id ok)
    · exact .refl
  | validateDone id accepted =>
    dsimp only [answered]
    split
    · have used (l : List CandidateID) : Walks cfg (e.grants (.validateDone id accepted))
          { e.hands (.validateDone id accepted) with deliver } e
            { e with validateCallbacks := l } := .quiet (.refl _) (.outside e)
      exact (used _).trans (runWith_walks fun _ _ => completeValidation_walks _ id accepted)
    · exact .refl
  | advance sends => exact runWith_walks fun _ _ => advance_walks e sends fun _ hp => hp
  | voteSaved v ok =>
    dsimp only [answered]
    split
    next mem =>
      refine completeWith_walks fun alive => ?_
      cases ok with
      | true => exact finishVoteCast_walks ⟨rfl, mem⟩ ⟨true, rfl, mem⟩ alive
      | false => exact .fatal rfl rfl (by simp)
    · exact .refl
  | certSaved cert res =>
    dsimp only [answered]
    split
    next mem =>
      exact completeWith_walks fun alive => ⟨finishCertificateSave_refines fun written =>
        ⟨rfl, mem, written⟩, .tick (.finish res alive ⟨res, rfl, mem⟩)⟩
    · exact .refl
  | windowSaved ok =>
    dsimp only [answered]
    split
    · exact .refl
    · have counted (n : Nat) : Walks cfg (e.grants (.windowSaved ok))
          { e.hands (.windowSaved ok) with deliver } e
            { e with journal := { e.journal with windowSaves := n } } :=
        .quiet (.refl _) (.outside e)
      split
      · exact counted _
      · exact (counted _).trans (completeWith_walks fun _ => .fatal rfl rfl (by simp))
  | updateParams p => exact .quiet (.refl _) (.outside e)
  | stop =>
    refine ⟨.quiet ?_, .tick .stop⟩
    exact
      { View.Quiet.refl e.view with
        failed := fun _ => by simp [view, stop, failed]
        waits := by simp [view, stop]
        drain := by simp [view, stop]
        queue := by simp [view, stop] }

theorem serve_ticks (e : Engine) (deliver : Prop) (t : Time) (input : Input) :
    Ticks cfg { e.hands input with deliver } e (e.serve cfg t input) := by
  have clock : Ticks cfg { e.hands input with deliver } e { e with clock := t } :=
    .plain (.outside e)
  refine clock.trans (Ticks.trans ?_ (serve_walks e deliver t input).ticks)
  generalize ({ e with clock := t } : Engine) = e
  unfold answered
  split
  · split
    · exact .plain (.answerVote e _ _)
    · exact .refl
  · split
    · exact .plain (.answerCert e _ _)
    · exact .refl
  · exact .refl

theorem step_walks (e : Engine) (t : Time) (input : Input) :
    Walks cfg ctx (e.hands input) (e.serve cfg t input) (e.step cfg t input) := by
  rw [step_eq_stepWith]
  rcases stepWith_cases e t input with ⟨-, eq⟩ | eq
  · rw [eq]
    exact .refl
  · rw [eq]
    exact drainPending_walks _ trivial

theorem step_ticks (e : Engine) (t : Time) (input : Input) :
    Ticks cfg (e.hands input) e (e.step cfg t input) := by
  have walks : Walks cfg .nothing (e.hands input) (e.serve cfg t input) (e.step cfg t input) :=
    step_walks e t input
  exact (serve_ticks e True t input).trans walks.ticks

theorem step_refines (e : Engine) (t : Time) (input : Input) :
    Refines cfg (e.grants input) (e.answered input) (e.step cfg t input) := by
  have ticked : Refines cfg (e.grants input) (e.answered input)
      ({ e with clock := t }.answered input) := by
    refine .quiet ?_
    cases input with
    | voteSaved v ok => unfold answered; dsimp only; split <;> exact .refl _
    | certSaved cert res => unfold answered; dsimp only; split <;> exact .refl _
    | _ => exact .refl _
  exact ticked.trans ((serve_walks e True t input).refines.trans (step_walks e t input).refines)

/-! ## Start -/

theorem failed_of_err? (e : Engine) (calm : e.err? = none) (running : e.stopped = false) :
    e.failed = false := by
  unfold err? at calm
  unfold failed
  split at calm
  · cases calm
  · cases fatal : e.fatalErr with
    | none => simp_all
    | some err => simp [fatal] at calm

theorem replayCertificates_ticks (e : Engine) (certs : List Certificate)
    (held : ∀ c ∈ certs, g.cert c)
    (running : e.stopped = false) (ok : e.failed = false) :
    Ticks cfg g e (e.replayCertificates cfg certs).1 := by
  induction certs generalizing e with
  | nil => exact .refl
  | cons cert certs ih =>
    have rest := fun c hc => held c (List.mem_cons_of_mem cert hc)
    unfold replayCertificates
    split
    · exact ih e rest running ok
    next slot here =>
      split
      next needs =>
        have stored : Ticks cfg g e (e.storeSavedCertificate cfg slot cert) :=
          .tick (.store ok (held cert List.mem_cons_self) here needs)
        have going : (e.storeSavedCertificate cfg slot cert).stopped = false := by
          rw [(SameBooks.storeSavedCertificate e slot cert).stopped]
          exact running
        dsimp only
        split
        · exact stored
        next calm =>
          exact stored.trans (ih _ rest going (failed_of_err? _ calm going))
      · exact .refl

theorem startSession_ticks (e : Engine) (votes : List Vote) (own : ∀ v ∈ votes, g.own v)
    (opening : g.opening) (deliver : g.deliver) : Ticks cfg g e (e.startSession cfg votes) := by
  have loud : Ticks cfg g e { e with suppressCertBroadcast := false } :=
    .plain (.outside e)
  have voted (e : Engine) : Ticks cfg g e (votes.foldl (replayVote cfg) e) :=
    .foldl _ (fun e v hv => replayVote_ticks e (own v hv)) e
  have reserved (e : Engine) :
      Ticks cfg g e (if cfg.hasVoter then e.castStartupWindowSkips cfg else e) := by
    split
    · exact castStartupWindowSkips_ticks e
    · exact .refl
  have begun (e : Engine) (t : Option Time) :
      Ticks cfg g e { e with started := true, standstillAt := t } :=
    .plain (.outside e)
  have opened (e : Engine) : Ticks cfg g e (e.openSession cfg) := by
    unfold openSession
    exact (reserved e).trans ((begun _ _).trans
      ((Ticks.tick (.advance opening)).trans (drainPending_ticks _ deliver)))
  exact loud.trans ((drainPending_ticks _ deliver).trans ((voted _).trans (opened _)))

/-- What the journal hands to `Start`. -/
def journalGrant (bs : BootstrapState) : Grant where
  own v := v ∈ bs.ourVotes
  inbox _ := False
  arrives _ := False
  receives _ := False
  cert c := c ∈ bs.certificates
  opening := True
  deliver := True
  submit := False

/-- `Start` rejects the journal, or is a sequence of ticks on the prepared engine. -/
theorem start_ticks (cfg : Config) (params : Params) (clock : Time) (bs : BootstrapState)
    (trace : List Event) :
    (start cfg params clock bs trace).1 = new params clock bs trace ∨
      (∀ c ∈ bs.certificates, cfg.verifyCertificate c = .ok ()) ∧
      Ticks cfg (journalGrant bs) ((new params clock bs trace).prepare cfg bs.ourVotes)
        (start cfg params clock bs trace).1 := by
  have prepared : ((new params clock bs trace).prepare cfg bs.ourVotes).stopped = false ∧
      ((new params clock bs trace).prepare cfg bs.ourVotes).failed = false := by
    unfold prepare
    split <;> exact ⟨rfl, rfl⟩
  have replayed : Ticks cfg (journalGrant bs) ((new params clock bs trace).prepare cfg bs.ourVotes)
      (((new params clock bs trace).prepare cfg bs.ourVotes).replayCertificates cfg
        bs.certificates).1 :=
    replayCertificates_ticks _ _ (fun _ hc => hc) prepared.1 prepared.2
  unfold start
  dsimp only
  split
  · exact .inl rfl
  next valid =>
    refine .inr ⟨cfg.validateBootstrap_ok.mp valid, ?_⟩
    split
    next e err eq =>
      rwa [eq] at replayed
    next e eq =>
      rw [eq] at replayed
      exact replayed.trans (startSession_ticks _ _ (fun _ hv => hv) trivial trivial)

end Engine

end Gton.Simplex
