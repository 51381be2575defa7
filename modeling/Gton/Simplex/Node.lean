import Gton.Simplex.Recovery

/-!
# A validator over crashes and restarts

A node serves inputs, may crash at any point and then runs `Start` on what its journal kept.
The history of outside calls goes on over all lifetimes.
-/

namespace Gton.Simplex

open List

/-- What may happen to a node: the inputs it gets and what survives a crash. -/
structure Environment where
  admits : Engine → Input → Prop
  reopens : Engine → BootstrapState → Prop

/-- The states of a node. Only an engine whose `Start` went through serves inputs. -/
inductive Reachable (cfg : Config) (env : Environment) : Engine → Prop where
  | boot (params : Params) (clock : Time) :
      Reachable cfg env (Engine.start cfg params clock ⟨0, [], []⟩ []).1
  | step {e : Engine} (t : Time) {input : Input} : Reachable cfg env e → e.started = true →
      env.admits e input → Reachable cfg env (e.step cfg t input)
  | restart {e : Engine} (params : Params) (clock : Time) {bs : BootstrapState} :
      Reachable cfg env e → env.reopens e bs →
      Reachable cfg env (Engine.start cfg params clock bs e.trace).1

/-! ## Ballots of a node -/

/-- The journal and the history are in order, also of a node that is down; a running engine has
no vote left to replay. -/
structure NodeBallots (cfg : Config) (e : Engine) : Prop where
  kept : ∃ rest v, Ballots cfg rest v ∧ v.voteLog = e.journal.votes ∧ v.trace = e.trace
  running : e.started = true → Ballots cfg [] e.view

/-- The view of a node that never ran. -/
abbrev View.first (cfg : Config) : View := View.recovered cfg ⟨0, [], []⟩ []

theorem Ballots.first (cfg : Config) : Ballots cfg [] (View.first cfg) := by
  have empty : (View.first cfg).log = [] := rfl
  refine
    { voting := ?_, follows := ?_, saves := ?_, signed := ?_, applied := ?_, clean := ?_
      flags := ?_, horizons := ?_, pruning := ?_, own := ?_, guarded := ?_, echo := ?_
      sent := ?_, drained := ?_ }
  · simp [empty]
  · simp [empty]
  · simp [View.recovered]
  · simp [View.recovered]
  · simp [View.recovered]
  · simp [View.recovered]
  · simp [empty]
  · rw [show (View.first cfg).voterHorizon = 0 from BootstrapState.voter_idle.horizon]
    exact UInt32.le_refl 0
  · simp [View.recovered]
  · simp [View.recovered]
  · simp [empty]
  · simp [View.recovered]
  · simp [OnWire, View.recovered]
  · simp [View.recovered]

namespace Engine

variable {cfg : Config} {e : Engine} {bs : BootstrapState} {v : View} {trace : List Event}
  {rest : List Vote}

theorem granted_nothing (rest : List Vote) (opening : Prop) (silent : rest ≠ [] → v.inbox = []) :
    Ballots.Granted cfg { Ctx.nothing with opening } rest v :=
  ⟨fun _ h => h.elim, fun _ h => h.elim, fun _ h => h.elim, fun hr => ⟨fun _ h => h, silent hr⟩⟩

/-- An engine whose certificates are replayed and whose own votes are not. -/
structure Ready (cfg : Config) (bs : BootstrapState) (e : Engine) : Prop where
  ballots : Ballots cfg bs.ourVotes e.view
  direct : Direct cfg e.view
  covered : cfg.hasVoter = true → Covered cfg e.view
  waiting : e.started = false
  ordered : bs.ourVotes.Pairwise Follows
  durable : ∀ b ∈ bs.ourVotes, ⟨b, true⟩ ∈ e.view.voteLog
  silent : bs.ourVotes ≠ [] → e.view.inbox = []

theorem Ready.drained {e₁ : Engine} (h : Ready cfg bs e)
    (drained : Refines cfg { Ctx.nothing with opening := False } e e₁) : Ready cfg bs e₁ := by
  have grown := Moves.grows drained
  obtain ⟨ballots, granted⟩ := h.ballots.moves (granted_nothing _ _ h.silent) drained
  exact
    { ballots
      direct := h.direct.moves (fun _ h => h) drained
      covered := fun voter => (h.covered voter).grows grown
      waiting := (Moves.started drained fun h => h).trans h.waiting
      ordered := h.ordered
      durable := fun b hb => grown.voteLog.subset (h.durable b hb)
      silent := fun hr => (granted.silent hr).2 }

theorem drainPending_nothing (e : Engine) : Refines cfg { Ctx.nothing with opening := False } e
    ({ e with suppressCertBroadcast := false }.drainPending cfg) := drainReplay_refines _ e

theorem Ready.opens (h : Ready cfg bs e) :
    Ballots cfg [] (bs.ourVotes.foldl (replayVote cfg) e).view ∧
      Refines cfg { Ctx.nothing with opening := True } (bs.ourVotes.foldl (replayVote cfg) e)
        ((bs.ourVotes.foldl (replayVote cfg) e).openSession cfg) := by
  obtain ⟨replayed, grown⟩ :=
    replayVotes_ballots bs.ourVotes h.ballots h.direct h.ordered h.durable h.silent
  exact ⟨replayed, openSession_refines trivial (fun voter => (h.covered voter).grows grown)
    ((replayVotes_started _ _).trans h.waiting)⟩

theorem startSession_ballots (h : Ready cfg bs e) :
    Ballots cfg [] (e.startSession cfg bs.ourVotes).view := by
  obtain ⟨replayed, opened⟩ := (h.drained (drainPending_nothing e)).opens
  exact (replayed.moves (granted_nothing [] True (by simp)) opened).1

theorem granted_replays :
    Ballots.Granted cfg (Ctx.replays bs.certificates) bs.ourVotes (View.recovered cfg bs trace) :=
  ⟨fun _ h => h.elim, fun _ h => h.elim, fun _ h => h.elim, fun _ => ⟨fun _ h => h, rfl⟩⟩

theorem Ready.replayed (h : Ballots cfg rest v) (kept : VotesKept v.voteLog bs)
    (replayed : Moves cfg (Ctx.replays bs.certificates) (View.recovered cfg bs v.trace) e.view) :
    Ready cfg bs e := by
  have grown := replayed.grows
  obtain ⟨ballots, after⟩ := (h.recovered kept).moves granted_replays replayed
  exact
    { ballots
      direct := by
        refine Direct.moves ?_ (fun _ h => h) replayed
        intro i s k p _ hp
        rw [show (View.recovered cfg bs v.trace).votes s i = {} from rfl,
          ValidatorVotes.byKind_empty] at hp
        cases hp
      covered := fun voter => (Covered.recovered voter).grows grown
      waiting := replayed.started fun h => h
      ordered := h.follows.sublist kept.ordered
      durable := fun b hb => grown.voteLog.subset (mem_map.mpr ⟨b, hb, rfl⟩)
      silent := fun hr => (after.silent hr).2 }

theorem replayed_moves {params : Params} {clock : Time}
    (he : e = (((new params clock bs trace).prepare cfg bs.ourVotes).replayCertificates cfg
      bs.certificates).1) :
    Moves cfg (Ctx.replays bs.certificates) (View.recovered cfg bs trace) e.view := by
  rw [he, ← view_prepare params clock]
  exact replayCertificates_refines _ _ fun _ h => h

theorem start_ballots (params : Params) (clock : Time) (h : Ballots cfg rest v)
    (kept : VotesKept v.voteLog bs) : NodeBallots cfg (start cfg params clock bs v.trace).1 := by
  rcases start_cases params clock bs v.trace with refused | ⟨-, e, he, hstart⟩
  · rw [refused]
    exact ⟨⟨_, _, h.recovered kept, rfl, rfl⟩, fun h => by cases h⟩
  · have ready := Ready.replayed h kept (replayed_moves he)
    rcases hstart with stuck | ⟨-, opened⟩
    · rw [stuck]
      exact ⟨⟨_, _, ready.ballots, rfl, rfl⟩, fun h => by rw [ready.waiting] at h; cases h⟩
    · rw [opened]
      have done := startSession_ballots ready
      exact ⟨⟨_, _, done, rfl, rfl⟩, fun _ => done⟩

/-- A valid signature of the local key that comes in was made here. -/
def OwnKeySafe (cfg : Config) (e : Engine) (input : Input) : Prop :=
  ∀ src from_ m p, input = .message src from_ m → m.votes from_ p →
    cfg.localIndex = some p.idx → cfg.verifyVote p.idx p.vote p.sig = true →
    .sign p.vote ∈ e.trace

/-- An answer only marks records durable and takes a save off the list. -/
structure Marked (v w : View) : Prop where
  same : w = { v with
    voteLog := w.voteLog, certLog := w.certLog, voteSaves := w.voteSaves, certSaves := w.certSaves }
  log : w.log = v.log
  durable : ∀ b, ⟨b, true⟩ ∈ v.voteLog → ⟨b, true⟩ ∈ w.voteLog
  voteSaves : w.voteSaves ⊆ v.voteSaves
  certs : w.certLog.map CertRecord.cert = v.certLog.map CertRecord.cert
  certDurable : ∀ c, ⟨c, true⟩ ∈ v.certLog → ⟨c, true⟩ ∈ w.certLog
  certSaves : w.certSaves ⊆ v.certSaves

theorem Marked.refl (v : View) : Marked v v :=
  ⟨rfl, rfl, fun _ h => h, fun _ h => h, rfl, fun _ h => h, fun _ h => h⟩

theorem answerVote_marked (e : Engine) (v : Vote) (ok : Bool) :
    Marked e.view (e.answerVote v ok).view := by
  cases ok with
  | false => exact ⟨rfl, rfl, fun _ h => h, erase_subset, rfl, fun _ h => h, fun _ h => h⟩
  | true =>
    refine ⟨rfl, ?_, fun b hb => ?_, erase_subset, rfl, fun _ h => h, fun _ h => h⟩
    · change List.map _ (List.map _ _) = List.map _ _
      rw [map_map]
      refine map_congr_left fun r _ => ?_
      dsimp only [Function.comp]
      split <;> rfl
    · exact mem_map.mpr ⟨_, hb, by split <;> rfl⟩

theorem answerCert_marked (e : Engine) (save : CertSave) (res : SaveResult) :
    Marked e.view (e.answerCert save res).view := by
  unfold answerCert
  split
  · refine ⟨rfl, rfl, fun _ h => h, fun _ h => h, ?_, fun b hb => ?_, erase_subset⟩
    · change List.map _ (List.map _ _) = List.map _ _
      rw [map_map]
      refine map_congr_left fun r _ => ?_
      dsimp only [Function.comp]
      split <;> rfl
    · exact mem_map.mpr ⟨_, hb, by split <;> rfl⟩
  · exact ⟨rfl, rfl, fun _ h => h, fun _ h => h, rfl, fun _ h => h, erase_subset⟩

theorem answered_marked (e : Engine) (input : Input) : Marked e.view (e.answered input).view := by
  cases input with
  | voteSaved v ok =>
    unfold answered
    dsimp only
    split
    · exact answerVote_marked e v ok
    · exact .refl _
  | certSaved cert res =>
    unfold answered
    dsimp only
    split
    · exact answerCert_marked e _ res
    · exact .refl _
  | _ => exact .refl _

theorem Marked.ballots {w : View} (m : Marked v w) (h : Ballots cfg [] v) : Ballots cfg [] w := by
  have same := m.same
  have log := m.log
  have durable := m.durable
  have saves := m.voteSaves
  rw [same] at log durable saves ⊢
  exact { h with
    voting := fun b hb => h.voting b (log ▸ hb)
    follows := by rw [log]; exact h.follows
    saves := fun b hb => by rw [log]; exact h.saves b (saves hb)
    signed := fun b hb => durable b (h.signed b hb)
    clean := fun a b hb ha => h.clean a b hb (log ▸ ha)
    flags := fun b hb => h.flags b (log ▸ hb)
    guarded := fun ok i b hi hb => h.guarded ok i b hi (log ▸ hb) }

theorem granted_answered (input : Input) (h : Ballots cfg [] e.view)
    (safe : OwnKeySafe cfg e input) :
    Ballots.Granted cfg (e.grants input) [] (e.answered input).view := by
  have nothing : Ballots.Granted cfg Ctx.nothing [] (e.answered input).view :=
    granted_nothing [] False (by simp)
  cases input with
  | message src from_ m =>
    exact { nothing with
      arrived := fun p hp hi hv => safe src from_ m p rfl hp hi hv
      silent := fun h => absurd rfl h }
  | voteSaved v ok =>
    cases ok with
    | false => exact nothing
    | true =>
      refine { nothing with acked := fun b hb => ?_, ordered := fun _ _ _ h => by cases h }
      obtain ⟨rfl, mem⟩ := hb
      obtain ⟨r, hr, rfl⟩ := mem_map.mp (h.saves _ mem)
      simp only [answered, if_pos mem]
      exact mem_map.mpr ⟨r, hr, by rw [if_pos rfl]⟩
  | certSaved cert res => exact { nothing with }
  | _ => exact nothing

theorem step_ballots (t : Time) (input : Input) (h : Ballots cfg [] e.view)
    (safe : OwnKeySafe cfg e input) : Ballots cfg [] (e.step cfg t input).view :=
  (((e.answered_marked input).ballots h).moves (granted_answered input h safe)
    (step_refines e t input)).1

end Engine

/-- A local key only this node signs with, and a journal that keeps acknowledged votes. -/
def voteKeeping (cfg : Config) : Environment where
  admits := Engine.OwnKeySafe cfg
  reopens e bs := VotesKept e.journal.votes bs

variable {cfg : Config}

theorem reachable_ballots (h : Reachable cfg (voteKeeping cfg) e) : NodeBallots cfg e := by
  induction h with
  | boot params clock =>
    exact Engine.start_ballots params clock (.first cfg)
      ⟨List.Sublist.refl _, by simp [View.recovered]⟩
  | step t _ started safe ih =>
    have next := Engine.step_ballots t _ (ih.running started) safe
    exact ⟨⟨_, _, next, rfl, rfl⟩, fun _ => next⟩
  | restart params clock _ kept ih =>
    obtain ⟨rest, v, ballots, log, trace⟩ := ih.kept
    rw [← trace]
    exact Engine.start_ballots params clock ballots (log ▸ kept)

theorem Engine.step_started (e : Engine) (t : Time) (input : Input) :
    (e.step cfg t input).started = e.started := by
  have closed : ¬ (e.grants input).opening := by
    cases input with
    | voteSaved v ok => cases ok <;> exact fun h => h
    | _ => exact fun h => h
  exact (Moves.started (step_refines e t input) closed).trans
    (congrArg View.started (e.answered_marked input).same)

theorem Reachable.serve {env : Environment} (h : Reachable cfg env e) (started : e.started = true)
    (t : Time) (inputs : List Input) (ok : ∀ e, ∀ i ∈ inputs, env.admits e i) :
    Reachable cfg env (inputs.foldl (fun e input => e.step cfg t input) e) := by
  induction inputs generalizing e with
  | nil => exact h
  | cons input inputs ih =>
    exact ih (h.step t started (ok e _ mem_cons_self)) ((e.step_started t input).trans started)
      fun e i hi => ok e i (mem_cons_of_mem _ hi)

/-- Two votes no honest validator casts for one slot. -/
def Equivocation (a b : Vote) : Prop :=
  a.slot = b.slot ∧
    ((a.kind = .notarize ∧ b.kind = .notarize ∧ a.id ≠ b.id) ∨
      (a.kind = .finalize ∧ b.kind = .skip) ∨
      (a.kind = .notarize ∧ b.kind = .finalize ∧ a.id ≠ b.id))

/-- The own votes handed to the transport over all lifetimes of a node never equivocate. -/
theorem wire_never_equivocates {cfg : Config} {e : Engine}
    (h : Reachable cfg (voteKeeping cfg) e) {a b : Vote} (ha : OnWire e.trace a)
    (hb : OnWire e.trace b) : ¬ Equivocation a b := by
  obtain ⟨rest, v, ballots, -, trace⟩ := (reachable_ballots h).kept
  rw [← trace] at ha hb
  have appliedA := ballots.sent a ha
  have appliedB := ballots.sent b hb
  have logA := Ballots.mem_log_of_durable (ballots.applied_durable appliedA)
  have logB := Ballots.mem_log_of_durable (ballots.applied_durable appliedB)
  rintro ⟨same, ⟨hka, hkb, ne⟩ | ⟨hka, hkb⟩ | ⟨hka, hkb, ne⟩⟩
  · exact ne (ballots.notarize_unique logA logB same hka hkb)
  · exact ballots.finalize_not_skip logA logB same hka hkb
  · exact ne (ballots.clean b a appliedA logB same.symm hkb hka).symm

/-- A roster of one validator of weight 1; every signature verifies. -/
def soloConfig : Config where
  sessionID := 0
  validators := [⟨List.replicate 32 0, 1⟩]
  localIndex := some 0
  spw := 8
  expectedLeader _ := 0
  sha256 _ := 0
  ed25519Verify _ _ _ := true
  sign _ _ := some (List.replicate 64 0)
  keyNodeIDShort _ := 0

def soloParams : Params := ⟨0, 0, id, 0, 1, 0⟩

/-- A candidate for `slot` that the single validator leads and signs. -/
def soloCandidate (slot : UInt32) (parent : ParentID) : Candidate where
  id := ⟨slot, 0⟩
  parent
  leader := 0
  empty := false
  block := ⟨0, 0, 1, List.replicate 32 0, List.replicate 32 0⟩
  collatedFileHash := 0
  signature := List.replicate 64 0
  delegation := none

/-- The first validator's certificate for a vote. -/
def soloCert (v : Vote) : Certificate := ⟨v, [⟨0, List.replicate 64 0⟩]⟩

/-- A journal of its certificates for these votes. -/
def soloCertified (votes : List Vote) : BootstrapState := ⟨0, [], votes.map soloCert⟩

/-- Submit a candidate and let its store and validation succeed. -/
def Engine.soloNotarize (e : Engine) (c : Candidate) : Engine :=
  ((e.step soloConfig 0 (.submitCandidate c)).step soloConfig 0 (.storeDone c.id true)).step
    soloConfig 0 (.validateDone c.id true)

/-- The validator notarizes slot 0 and crashes once the vote is out. -/
def soloBeforeCrash : Engine :=
  ((Engine.start soloConfig soloParams 0 ⟨0, [], []⟩ []).1.soloNotarize
    (soloCandidate 0 genesis)).step soloConfig 0 (.voteSaved (notarizeVote ⟨0, 0⟩) true)

/-- After the restart the interrupted window is skipped. -/
def soloAfterCrash : Engine :=
  (Engine.start soloConfig soloParams 0 ⟨1, [notarizeVote ⟨0, 0⟩], []⟩ soloBeforeCrash.trace).1.step
    soloConfig 0 (.voteSaved (skipVote 0) true)

theorem soloBeforeCrash_votes :
    soloBeforeCrash.journal.votes = [⟨notarizeVote ⟨0, 0⟩, true⟩] := by decide +kernel

/-- The run is possible in every environment that allows the crash. -/
theorem soloAfterCrash_reachable {env : Environment}
    (admits : ∀ e input, (∀ src from_ m, input ≠ .message src from_ m) → env.admits e input)
    (reopens : env.reopens soloBeforeCrash ⟨1, [notarizeVote ⟨0, 0⟩], []⟩) :
    Reachable soloConfig env soloAfterCrash := by
  have crashed : Reachable soloConfig env soloBeforeCrash :=
    .serve (.boot soloParams 0) (by decide +kernel) 0
      [.submitCandidate (soloCandidate 0 genesis), .storeDone ⟨0, 0⟩ true,
        .validateDone ⟨0, 0⟩ true, .voteSaved (notarizeVote ⟨0, 0⟩) true]
      fun e i mem => admits e i (by
        rintro src from_ m rfl
        simp at mem)
  exact .step 0 (.restart soloParams 0 crashed reopens) (by decide +kernel) (admits _ _ (by simp))

theorem soloBeforeCrash_kept :
    VotesKept soloBeforeCrash.journal.votes ⟨1, [notarizeVote ⟨0, 0⟩], []⟩ := by
  rw [soloBeforeCrash_votes]
  exact ⟨List.Sublist.refl _, by simp⟩

/-- A notarize vote from before the crash and a skip vote for the same slot from after it. -/
theorem wire_never_equivocates_solo :
    OnWire soloAfterCrash.trace (notarizeVote ⟨0, 0⟩) ∧ OnWire soloAfterCrash.trace (skipVote 0) ∧
      ¬ Equivocation (notarizeVote ⟨0, 0⟩) (skipVote 0) := by
  have notarized : OnWire soloAfterCrash.trace (notarizeVote ⟨0, 0⟩) := by decide +kernel
  have skipped : OnWire soloAfterCrash.trace (skipVote 0) := by decide +kernel
  have reached : Reachable soloConfig (voteKeeping soloConfig) soloAfterCrash :=
    soloAfterCrash_reachable (fun _ _ other src from_ m _ h => (other src from_ m h).elim)
      soloBeforeCrash_kept
  exact ⟨notarized, skipped, wire_never_equivocates reached notarized skipped⟩

end Gton.Simplex
