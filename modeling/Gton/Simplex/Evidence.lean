import Gton.Simplex.Tally

/-!
# Evidence of conflicting votes

A record that clashes with a new vote is reported with both votes and what proves them. Records
only hold votes that were proved when they came in, so the evidence can be checked with the roster
alone, and a validator whose votes go together is never reported for them.
-/

namespace Gton.Simplex

open List Function

namespace ValidatorVotes

variable {vv : ValidatorVotes} {p : Proven} {ev : ConflictEvidence}

theorem checkInvariants_eq_some (h : vv.checkInvariants = some ev) :
    (vv.notarize = some ev.a ∧ vv.finalize = some ev.b ∧ ev.a.vote.id ≠ ev.b.vote.id) ∨
      (vv.finalize = some ev.a ∧ vv.skip = some ev.b) := by
  unfold checkInvariants at h
  split at h
  · cases h
  next f hf =>
    split at h
    next n hn =>
      split at h
      next differ =>
        cases h
        exact .inl ⟨hn, hf, differ⟩
      · split at h
        next s hs =>
          cases h
          exact .inr ⟨hf, hs⟩
        · cases h
    · split at h
      next s hs =>
        cases h
        exact .inr ⟨hf, hs⟩
      · cases h

/-- The evidence of a clash is two conflicting votes, each recorded or new. -/
theorem add_evidence {S : Proven → Prop}
    (recorded : ∀ k q, vv.byKind k = some q →
      q.vote.kind = k ∧ q.vote.slot = p.vote.slot ∧ S q)
    (new : S p) (h : (vv.add p).2.2 = some ev) :
    S ev.a ∧ S ev.b ∧ ¬ Compatible ev.a.vote ev.b.vote := by
  unfold add at h
  split at h
  next old hold =>
    obtain ⟨kind, slot, hs⟩ := recorded _ _ hold
    split at h
    next clash =>
      cases h
      refine ⟨new, hs, fun compatible => clash.2 ?_⟩
      have voting : p.vote.kind ≠ .skip := by
        intro skip
        simp [skip] at clash
      have same := (compatible slot.symm).1 voting (kind.symm ▸ voting)
      exact congrArg₂ Vote.mk kind same.symm
    · cases h
  · dsimp only at h
    have recorded' : ∀ k q, (vv.setKind p.vote.kind (some p)).byKind k = some q →
        q.vote.kind = k ∧ q.vote.slot = p.vote.slot ∧ S q := by
      intro k q hq
      rw [byKind_setKind] at hq
      split at hq
      next hk =>
        cases hq
        exact ⟨hk.symm, rfl, new⟩
      · exact recorded k q hq
    split at h
    next found =>
      cases h
      rcases checkInvariants_eq_some found with ⟨hn, hf, differ⟩ | ⟨hf, hs⟩
      · obtain ⟨kn, sn, pn⟩ := recorded' .notarize _ hn
        obtain ⟨kf, sf, pf⟩ := recorded' .finalize _ hf
        refine ⟨pn, pf, fun compatible => differ ?_⟩
        exact (compatible (sn.trans sf.symm)).1 (by simp [kn]) (by simp [kf])
      · obtain ⟨kf, sf, pf⟩ := recorded' .finalize _ hf
        obtain ⟨ks, ss, ps⟩ := recorded' .skip _ hs
        exact ⟨pf, ps, fun compatible => (compatible (sf.trans ss.symm)).2 kf ks⟩
    · cases h

end ValidatorVotes

/-! ## Sound reports -/

def Event.report? : Event → Option (Nat × Misbehavior)
  | .onMisbehavior i m => some (i, m)
  | _ => none

variable {m : Misbehavior} {i : Nat} {e : Engine} {p : Proven} {bs : BootstrapState}
  {made : Nat → Vote → Prop}

theorem Event.report?_eq_some {ev : Event} :
    ev.report? = some (i, m) ↔ ev = .onMisbehavior i m := by
  cases ev <;> simp [report?]

/-- The reports the hook was called with, newest first. -/
def Engine.reported (e : Engine) : List (Nat × Misbehavior) := e.trace.filterMap Event.report?

theorem Engine.mem_reported : (i, m) ∈ e.reported ↔ .onMisbehavior i m ∈ e.trace := by
  simp [reported, mem_filterMap, Event.report?_eq_some]

/-- A proof shows that validator `i` voted `v`: it is that vote under a valid signature of `i`, or
a verified certificate for it that `i` signed. -/
def Proof.Shows (cfg : Config) (i : Nat) (v : Vote) : Proof → Prop
  | .vote sv => sv.validatorIndex = i ∧ sv.vote = v ∧ cfg.verifyVote i v sv.signature = true
  | .certificate c =>
    cfg.verifyCertificate c = .ok () ∧ c.vote = v ∧ ∃ sig, ⟨i, sig⟩ ∈ c.signatures
  | .hashData _ => False

/-- What is reported of validator `i` as conflicting votes are two votes `i` made that conflict. -/
def Misbehavior.Sound (cfg : Config) (made : Nat → Vote → Prop) (i : Nat) : Misbehavior → Prop
  | .conflictingVotes p q => ∃ a b, p.Shows cfg i a ∧ q.Shows cfg i b ∧ ¬ Compatible a b ∧
    made i a ∧ made i b
  | .conflictingCandidateAndCertificate _ _ => True

theorem Proven.Proves.shows {cfg : Config} (h : p.Proves cfg made i) :
    (p.proofBytes i).Shows cfg i p.vote := by
  unfold Proves at h
  unfold proofBytes
  cases hc : p.cert with
  | none =>
    rw [hc] at h
    exact ⟨rfl, rfl, h.2⟩
  | some c =>
    rw [hc] at h
    exact ⟨h.2.1, h.2.2.1, p.sig, h.2.2.2⟩

namespace PoolSlot

variable {cfg : Config} {s : UInt32} {slot : PoolSlot}

theorem Kept.sound (h : Kept cfg made s slot) {ev : ConflictEvidence}
    (here : p.vote.slot = s) (proves : p.Proves cfg made i)
    (clash : ((slot.votes i).add p).2.2 = some ev) : (ev.misbehavior i).Sound cfg made i := by
  have recorded : ∀ k q, (slot.votes i).byKind k = some q →
      q.vote.kind = k ∧ q.vote.slot = p.vote.slot ∧ q.Proves cfg made i := by
    intro k q hq
    obtain ⟨kind, slot, -, holds⟩ := h.recorded i k q hq
    exact ⟨kind, slot.trans here.symm, holds⟩
  obtain ⟨pa, pb, conflict⟩ := ValidatorVotes.add_evidence recorded proves clash
  exact ⟨_, _, pa.shows, pb.shows, conflict, pa.1, pb.1⟩

end PoolSlot

theorem Pool.sound_of_evaluateParentWait (cfg : Config) {p : Pool} {c : Candidate}
    (i : Nat) (h : p.evaluateParentWait c = .done (.misbehavior m)) : m.Sound cfg made i := by
  have skips {next slot : UInt32} : p.evaluateSkips next slot ≠ .done (.misbehavior m) := by
    unfold evaluateSkips
    repeat' split
    all_goals simp
  unfold evaluateParentWait at h
  dsimp only at h
  repeat' split at h
  all_goals first
    | exact absurd h skips
    | cases h
  all_goals trivial

namespace Engine

variable {cfg : Config} {g : Grant} {e e' : Engine} {i : Nat} {v : Vote} {sig : Signature}
  {c : Candidate}

/-- Every report, delivered or on its way, is sound. -/
def Evident (cfg : Config) (made : Nat → Vote → Prop) (e : Engine) : Prop :=
  ∀ i m, e.Reports i m → m.Sound cfg made i

namespace Evident

section

variable (h : Evident cfg made e)
include h

theorem of_reports (sub : ∀ i m, e'.Reports i m → e.Reports i m) :
    Evident cfg made e' := fun i m hr => h i m (sub i m hr)

theorem enqueue {d : Deferred}
    (hook : ∀ i m, d = .onMisbehavior i m → m.Sound cfg made i)
    (wait : ∀ c m, d = .onParentWaitDone c (.misbehavior m) → m.Sound cfg made c.leader.toNat) :
    Evident cfg made (e.enqueue d) := by
  intro j n reported
  cases reported with
  | delivered mem => exact h _ _ (.delivered mem)
  | queued mem =>
    rcases mem_append.mp mem with mem | mem
    · exact h _ _ (.queued mem)
    · exact hook _ _ (mem_singleton.mp mem).symm
  | decided mem =>
    rcases mem_append.mp mem with mem | mem
    · exact h _ _ (.decided mem)
    · exact wait _ _ (mem_singleton.mp mem).symm

theorem report (sound : m.Sound cfg made i) : Evident cfg made (e.reportMisbehavior i m) := by
  apply h.enqueue
  · rintro _ _ ⟨⟩
    exact sound
  · rintro _ _ ⟨⟩

/-! ## Votes -/

theorem handleCertificate (cert : Certificate) : Evident cfg made (e.handleCertificate cert) :=
  handleCertificate_keep h fun _ _ _ => h.of_reports (Inner.reports_of_eq rfl rfl)

theorem applyVote {tolerate : Bool} (slots : e.pool.slots.Each (PoolSlot.Kept cfg made))
    (valid : cfg.verifyVote i v sig = true) (known : made i v) :
    Evident cfg made (e.applyVote cfg i v sig tolerate).1 := by
  apply applyVote_keep h
  · exact fun _ => h.of_reports (Inner.fatal _ _).reports
  · intro slot ev here clash
    have proves : Proven.Proves cfg made i ⟨v, sig, none⟩ := ⟨known, valid⟩
    exact h.report ((slots _ _ here).sound rfl proves clash)
  · exact h.of_reports (Plain.emit e rfl).reports
  · exact fun _ _ _ same _ _ => same.of_reports (Inner.reports_of_eq rfl rfl)
  · exact fun _ _ same _ _ => same.handleCertificate _

/-! ## Candidates

A candidate whose parent cannot stand is reported too, but not for its votes. -/

theorem parentWaitDecided {r : ParentWait}
    (sound : ∀ m, r = .done (.misbehavior m) → m.Sound cfg made c.leader.toNat) :
    Evident cfg made (e.parentWaitDecided c r) := by
  have queued {e : Engine} (h : Evident cfg made e) {out : ParentWaitOutcome}
      (sound : ∀ m, out = .misbehavior m → m.Sound cfg made c.leader.toNat) :
      Evident cfg made (e.enqueue (.onParentWaitDone c out)) := by
    apply h.enqueue
    · rintro _ _ ⟨⟩
    · rintro _ m ⟨⟩
      exact sound m rfl
  unfold Engine.parentWaitDecided
  split
  · exact h
  · exact queued (h.of_reports (Inner.fatal _ _).reports) fun _ eq => by cases eq
  · exact queued (h.of_reports (Plain.emit e rfl).reports) fun _ eq => by cases eq
  · exact queued h fun m eq => sound m (congrArg ParentWait.done eq)

theorem resolveLoop (n i : Nat) : Evident cfg made (Engine.resolveLoop n i e) := by
  induction n generalizing i e with
  | zero => exact h
  | succ n ih =>
    unfold Engine.resolveLoop
    split
    · exact h
    · split
      · exact ih h _
      · have left (l : List Candidate) : Evident cfg made { e with parentWaits := l } :=
          h.of_reports (Inner.reports_of_eq rfl rfl)
        exact ih ((left _).parentWaitDecided fun m eq =>
          Pool.sound_of_evaluateParentWait cfg _ eq) _

theorem acceptCandidate (c : Candidate) : Evident cfg made (e.acceptCandidate cfg c) := by
  unfold Engine.acceptCandidate
  dsimp only
  split
  · exact h
  · split
    · exact h
    · split
      · exact h
      next slot _ _ =>
        generalize hq : ((e.setVoterSlot c.id.slot _).emit (.submitted c)).enqueue
          (.storeCandidate c) = e₁
        have noted : Evident cfg made e₁ := by
          rw [← hq]
          have taken (v : VoterSlot) : Evident cfg made ((e.setVoterSlot c.id.slot v).emit
              (.submitted c)) := by
            have set : Evident cfg made (e.setVoterSlot c.id.slot v) :=
              h.of_reports (Inner.reports_of_eq rfl rfl)
            exact set.of_reports fun i m => Inner.reports_emit (by simp) i m
          exact (taken _).of_reports (Inner.enqueue _ rfl (by simp)).reports
        unfold registerParentWait
        split
        · exact noted.of_reports (Inner.reports_of_eq rfl rfl)
        · exact noted.parentWaitDecided fun m eq => Pool.sound_of_evaluateParentWait cfg _ eq

theorem onParentWaitDone {out : ParentWaitOutcome} {ds : List Deferred}
    (queue : e.pending = .onParentWaitDone c out :: ds) :
    Evident cfg made ({ e with pending := ds }.onParentWaitDone cfg c out) := by
  have popped : Evident cfg made { e with pending := ds } := h.of_reports (Inner.reports_pop queue)
  unfold Engine.onParentWaitDone
  split
  · exact popped
  · split
    · exact popped.report (h _ _ (.decided (queue ▸ mem_cons_self)))
    · exact popped
    · exact popped
    · split
      · exact popped
      · split
        · exact popped
        · have flagged (v : VoterSlot) : Evident cfg made ({ e with pending := ds }.setVoterSlot
              c.id.slot v) := popped.of_reports (Inner.reports_of_eq rfl rfl)
          exact (flagged _).of_reports (Inner.enqueue _ rfl (by simp)).reports

/-! ## Certificates -/

theorem storeSavedCertificate (slot : PoolSlot) (cert : Certificate) :
    Evident cfg made (e.storeSavedCertificate cfg slot cert) := by
  obtain ⟨e', inner, eq | eq⟩ := storeSavedCertificate_inner cfg e slot cert
  · exact eq ▸ h.of_reports inner.reports
  · exact eq ▸ (h.of_reports inner.reports).resolveLoop _ _

theorem finishCertificateSave {cert : Certificate} {res : SaveResult}
    (slots : e.pool.slots.Each (PoolSlot.Kept cfg made)) (vouched : cert.Vouched cfg made) :
    Evident cfg made (e.finishCertificateSave cfg cert res) := by
  have proves (s : VoteSignature) (mem : s ∈ cert.signatures) :
      Proven.Proves cfg made s.validatorIndex ⟨cert.vote, s.signature, some cert⟩ :=
    ⟨vouched.2 s mem, vouched.1, rfl, mem⟩
  apply finishCertificateSave_keep
    (R := fun e slot => Evident cfg made e ∧ PoolSlot.Kept cfg made cert.vote.slot slot) h
  · exact h.of_reports (Inner.fatal _ _).reports
  · exact fun slot here => ⟨h, slots _ _ here⟩
  · rintro e₁ slot s ev ⟨h, kept⟩ mem clash
    exact ⟨h.report (kept.sound rfl (proves s mem) clash), kept⟩
  · rintro e₁ slot s ⟨h, kept⟩ mem
    exact ⟨h, kept.extract (by simp) rfl (Config.decoded_of_verifyCertificate vouched.1)
      (proves s mem)⟩
  · rintro e₁ slot ⟨h, -⟩ - -
    have set : Evident cfg made (e₁.setSlot cert.vote.slot slot) :=
      h.of_reports (Inner.reports_of_eq rfl rfl)
    exact set.storeSavedCertificate _ _

/-! ## Whole runs -/

theorem tick (slots : e.pool.slots.Each (PoolSlot.Kept cfg made)) (signer : cfg.SignerValid)
    (fair : g.Fair cfg made) (t : Tick cfg g e e') : Evident cfg made e' := by
  cases t with
  | plain p => exact h.of_reports p.reports
  | fatal => exact h.of_reports (Inner.fatal _ _).reports
  | stop =>
    refine h.of_reports fun i m reported => ?_
    cases reported with
    | delivered mem => exact .delivered mem
    | queued mem => cases mem
    | decided mem => cases mem
  | receive | cast => exact h.of_reports (Inner.reports_of_eq rfl rfl)
  | apply tolerate _ signed =>
    rcases signed with ⟨own, local_, n, made⟩ | ⟨⟨src, here⟩, valid⟩
    · exact h.applyVote slots (signer _ n _ _ local_ made) ((fair.own _ own).2 _ local_)
    · exact h.applyVote slots valid ((fair.inbox _ here).2 valid)
  | save => exact h.handleCertificate _
  | accept => exact h.acceptCandidate _
  | moveOn _ queue => exact h.onParentWaitDone queue
  | finish res _ held => exact h.finishCertificateSave slots (fair.cert _ held)
  | store => exact h.storeSavedCertificate _ _
  | advance => exact h.of_reports (Inner.advancePresent _).reports

theorem ticks {old : Certificate → Prop} (recorded : Recorded cfg made old e)
    (signer : cfg.SignerValid) (fair : g.Fair cfg made) (t : Ticks cfg g e e') :
    Evident cfg made e' := by
  have step {a b : Engine} (both : Recorded cfg made old a ∧ Evident cfg made a)
      (t : Tick cfg g a b) : Recorded cfg made old b ∧ Evident cfg made b :=
    ⟨both.1.tick signer fair t, both.2.tick both.1.slots signer fair t⟩
  exact (t.keep step ⟨recorded, h⟩).2

end

end Evident

theorem new_evident (cfg : Config) (params : Params) (clock : Time) (bs : BootstrapState) :
    Evident cfg made (new params clock bs []) := by
  intro i m reported
  cases reported with
  | delivered mem => cases mem
  | queued mem => cases mem
  | decided mem => cases mem

theorem start_evident (signer : cfg.SignerValid) (genuine : bs.Genuine cfg made)
    (params : Params) (clock : Time) (decoded : ∀ v ∈ bs.ourVotes, v.decoded = v) :
    Evident cfg made (start cfg params clock bs []).1 := by
  have fresh : Evident cfg made _ := new_evident cfg params clock bs
  rcases start_ticks cfg params clock bs [] with rejected | ⟨valid, ticks⟩
  · rw [rejected]
    exact fresh
  · have prepared : Evident cfg made ((new params clock bs []).prepare cfg bs.ourVotes) := by
      unfold prepare
      split <;> exact fresh.of_reports (Inner.reports_of_eq rfl rfl)
    exact prepared.ticks (prepare_recorded cfg params clock bs []) signer
      (journalGrant_fair genuine decoded valid) ticks

/-! ## What a clash leaves behind -/

theorem applyVote_clash {slot : PoolSlot} (tolerate : Bool)
    (here : e.pool.slots.get? v.slot = some slot)
    (clash : ((slot.votes i).add ⟨v, sig, none⟩).2.2 ≠ none) :
    (e.applyVote cfg i v sig tolerate).1.pool = e.pool := by
  unfold applyVote
  rw [here]
  dsimp only
  split
  · split
    · exact pool_fatal _ _
    · rfl
  next quiet =>
    exact absurd quiet clash

theorem votes_extractVotes_of_notMem (cert : Certificate) (l : List VoteSignature)
    (absent : i ∉ l.map VoteSignature.validatorIndex) (e : Engine) (slot : PoolSlot) :
    (e.extractVotes slot cert l).2.votes i = slot.votes i := by
  induction l generalizing e slot with
  | nil => rfl
  | cons s l ih =>
    rw [map_cons, mem_cons, not_or] at absent
    unfold extractVotes
    dsimp only
    split
    · rw [ih absent.2]
      exact update_of_ne absent.1 _ _
    · rw [ih absent.2]
      exact update_of_ne absent.1 _ _

theorem votes_extractVotes_clash (cert : Certificate) (l : List VoteSignature)
    (nodup : (l.map VoteSignature.validatorIndex).Nodup) (mem : ⟨i, sig⟩ ∈ l) (e : Engine)
    (slot : PoolSlot) (clash : ((slot.votes i).add ⟨cert.vote, sig, some cert⟩).2.2 ≠ none) :
    (e.extractVotes slot cert l).2.votes i = slot.votes i := by
  induction l generalizing e slot with
  | nil => cases mem
  | cons s l ih =>
    rw [map_cons, nodup_cons] at nodup
    rcases mem_cons.mp mem with rfl | later
    · have kept : ((slot.votes i).add ⟨cert.vote, sig, some cert⟩).1 = slot.votes i :=
        ValidatorVotes.add_unapplied
          (ValidatorVotes.add_conflict (Option.isSome_iff_ne_none.mpr clash))
      unfold extractVotes
      dsimp only
      split
      · rw [votes_extractVotes_of_notMem cert l nodup.1]
        exact (update_self _ _ _).trans kept
      next quiet =>
        exact absurd quiet clash
    · have other : i ≠ s.validatorIndex := by
        intro eq
        exact nodup.1 (eq ▸ mem_map_of_mem later)
      have next (e : Engine) (slot' : PoolSlot) (same : slot'.votes i = slot.votes i) :
          (e.extractVotes slot' cert l).2.votes i = slot.votes i := by
        rw [ih nodup.2 later e slot' (by rw [same]; exact clash), same]
      unfold extractVotes
      dsimp only
      split
      · exact next _ _ (update_of_ne other _ _)
      · exact next _ _ (update_of_ne other _ _)

end Engine

theorem Run.evident {cfg : Config} {admits : Input → Prop}
    (signer : cfg.SignerValid) (decoded : ∀ v ∈ bs.ourVotes, v.decoded = v)
    (journal : bs.Genuine cfg made) (genuine : ∀ input, admits input → input.Genuine cfg made)
    (h : Run cfg bs admits e) : e.Evident cfg made := by
  induction h with
  | start params clock => exact Engine.start_evident signer journal params clock decoded
  | step t run admitted ih =>
    have recorded := run.recorded signer decoded journal genuine
    exact ih.ticks recorded signer (recorded.fair (genuine _ admitted)) (Engine.step_ticks _ t _)

/-- In every run a report of conflicting votes carries two proofs of conflicting votes of the
reported validator. A validator whose votes go together, as far as the journal, the inputs and the
own signer show them, is never reported; and a clash, with a vote or with a certificate, leaves
the record as it was. -/
theorem misbehavior_evidence_sound {cfg : Config} {bs : BootstrapState} {admits : Input → Prop}
    {e : Engine} (signer : cfg.SignerValid) (decoded : ∀ v ∈ bs.ourVotes, v.decoded = v)
    (h : Run cfg bs admits e) :
    (∀ i p q, .onMisbehavior i (.conflictingVotes p q) ∈ e.trace →
      ∃ a b, p.Shows cfg i a ∧ q.Shows cfg i b ∧ ¬ Compatible a b) ∧
    (∀ made, bs.Genuine cfg made → (∀ input, admits input → input.Genuine cfg made) →
      ∀ i, (∀ a b, made i a → made i b → Compatible a b) →
      ∀ p q, .onMisbehavior i (.conflictingVotes p q) ∉ e.trace) ∧
    (∀ i v sig slot tolerate, e.pool.slots.get? v.slot = some slot →
      ((slot.votes i).add ⟨v, sig, none⟩).2.2 ≠ none →
      (e.applyVote cfg i v sig tolerate).1.pool = e.pool) ∧
    ∀ cert slot, cfg.verifyCertificate cert = .ok () → ∀ i sig, ⟨i, sig⟩ ∈ cert.signatures →
      ((slot.votes i).add ⟨cert.vote, sig, some cert⟩).2.2 ≠ none →
      (e.extractVotes slot cert cert.signatures).2.votes i = slot.votes i := by
  refine ⟨?_, ?_, ?_, ?_⟩
  · intro i p q reported
    have evident := h.evident signer decoded ⟨by simp, by simp⟩ fun input _ => input.genuine_any cfg
    obtain ⟨a, b, pa, qb, conflict, -⟩ := evident i _ (.delivered reported)
    exact ⟨a, b, pa, qb, conflict⟩
  · intro made journal genuine i compatible p q reported
    have evident := h.evident signer decoded journal genuine
    obtain ⟨a, b, -, -, conflict, ma, mb⟩ := evident i _ (.delivered reported)
    exact conflict (compatible a b ma mb)
  · intro i v sig slot tolerate here clash
    exact Engine.applyVote_clash tolerate here clash
  · intro cert slot valid i sig signed clash
    exact Engine.votes_extractVotes_clash cert _ (cfg.nodup_of_verifyCertificate valid) signed e
      slot clash

/-- An observer of the single validator. -/
def observerConfig : Config := { soloConfig with localIndex := none }

/-- The messages with these votes of the validator, and their check. -/
def observedVotes (votes : List Vote) : List Input :=
  votes.map (fun v => .message 0 (some 0) (.vote v (List.replicate 64 0))) ++ [.flushVerify]

/-- The observer after these votes. -/
def observed (votes : List Vote) : Engine :=
  (observedVotes votes).foldl (fun e input => e.step observerConfig 0 input)
    (Engine.start observerConfig soloParams 0 ⟨0, [], []⟩ []).1

/-- The validator notarizes one candidate and finalizes another. -/
def observedConflict : Engine := observed [notarizeVote ⟨0, 0⟩, finalizeVote ⟨0, 1⟩]

/-- The observer reports the validator, and does not when it finalizes what it notarized. -/
theorem misbehavior_evidence_sound_observed :
    (∃ p q, .onMisbehavior 0 (.conflictingVotes p q) ∈ observedConflict.trace) ∧
      (∀ p q, .onMisbehavior 0 (.conflictingVotes p q) ∈ observedConflict.trace →
        ∃ a b, p.Shows observerConfig 0 a ∧ q.Shows observerConfig 0 b ∧ ¬ Compatible a b) ∧
      ∀ p q, .onMisbehavior 0 (.conflictingVotes p q) ∉
        (observed [notarizeVote ⟨0, 0⟩, finalizeVote ⟨0, 0⟩]).trace := by
  have run (votes : List Vote) :
      Run observerConfig ⟨0, [], []⟩ (· ∈ observedVotes votes) (observed votes) :=
    (Run.start soloParams 0).serve 0 _ fun _ mem => mem
  have silent : observerConfig.SignerValid := fun _ _ _ _ own => by cases own
  have first : observedConflict.reported.head? = some (0, .conflictingVotes
      (.vote ⟨0, notarizeVote ⟨0, 0⟩, List.replicate 64 0⟩)
      (.vote ⟨0, finalizeVote ⟨0, 1⟩, List.replicate 64 0⟩)) := by decide +kernel
  refine ⟨⟨_, _, Engine.mem_reported.mp (mem_of_head? first)⟩, fun p q reported => ?_, ?_⟩
  · exact (misbehavior_evidence_sound silent (fun _ h => by cases h) (run _)).1 0 p q reported
  · refine (misbehavior_evidence_sound silent (fun _ h => by cases h) (run _)).2.1
      (fun _ v => v = notarizeVote ⟨0, 0⟩ ∨ v = finalizeVote ⟨0, 0⟩) ⟨by simp, by simp⟩ ?_ 0 ?_
    · intro input mem
      simp only [observedVotes, map_cons, map_nil, cons_append, nil_append, mem_cons,
        not_mem_nil, or_false] at mem
      rcases mem with rfl | rfl | rfl
      · exact ⟨fun p voted _ => .inl voted.2.1, fun c absent => absent.elim⟩
      · exact ⟨fun p voted _ => .inr voted.2.1, fun c absent => absent.elim⟩
      · trivial
    · rintro a b (rfl | rfl) (rfl | rfl) <;> simp [Compatible, notarizeVote, finalizeVote]

end Gton.Simplex
