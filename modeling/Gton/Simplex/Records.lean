import Gton.Simplex.Pool

/-!
# One validator's record

What `ValidatorVotes.add` can do to a record, and the rules for what a vote or a certificate does
to the engine.
-/

namespace Gton.Simplex

/-- Two votes that may stand in one record: all but skip votes name one candidate, and a
finalize vote excludes a skip vote. -/
def Compatible (a b : Vote) : Prop :=
  a.slot = b.slot →
    (a.kind ≠ .skip → b.kind ≠ .skip → a.id = b.id) ∧ (a.kind = .finalize → b.kind ≠ .skip)

namespace ValidatorVotes

variable {vv vv' : ValidatorVotes} {p q : Proven} {k : VoteKind}

@[simp] theorem byKind_empty (k : VoteKind) : ({} : ValidatorVotes).byKind k = none := by
  cases k <;> rfl

theorem byKind_setKind (k j : VoteKind) (o : Option Proven) :
    (vv.setKind k o).byKind j = if j = k then o else vv.byKind j := by
  cases k <;> cases j <;> rfl

/-- No finalize vote stands against a skip vote or a notarize vote for another candidate. -/
theorem checkInvariants_eq_none : vv.checkInvariants = none ↔
    ∀ f, vv.finalize = some f →
      (∀ n, vv.notarize = some n → n.vote.id = f.vote.id) ∧ vv.skip = none := by
  unfold checkInvariants
  constructor
  · intro h f hf
    rw [hf] at h
    dsimp only at h
    constructor
    · intro n hn
      rw [hn] at h
      dsimp only at h
      by_contra ne
      rw [if_pos ne] at h
      cases h
    · cases hs : vv.skip with
      | none => rfl
      | some s =>
        rw [hs] at h
        split at h
        · split at h <;> cases h
        · cases h
  · intro h
    split
    · rfl
    next f hf =>
      obtain ⟨hn, hs⟩ := h f hf
      rw [hs]
      split
      next n hn' =>
        rw [if_neg (not_not.mpr (hn n hn'))]
      · rfl

theorem add_applied {ev : Option ConflictEvidence} (h : vv.add p = (vv', true, ev)) :
    vv.byKind p.vote.kind = none ∧ vv' = vv.setKind p.vote.kind (some p) ∧
      vv'.checkInvariants = none := by
  unfold add at h
  split at h
  · split at h <;> cases h
  next absent =>
    dsimp only at h
    split at h
    · cases h
    next ok =>
      cases h
      exact ⟨absent, rfl, ok⟩

theorem add_unapplied (h : (vv.add p).2.1 = false) : (vv.add p).1 = vv := by
  unfold add at h ⊢
  split
  · split <;> rfl
  next absent =>
    rw [absent] at h
    dsimp only at h ⊢
    split
    · rfl
    next ok =>
      rw [ok] at h
      cases h

theorem add_conflict (h : (vv.add p).2.2.isSome = true) : (vv.add p).2.1 = false := by
  unfold add at h ⊢
  split
  · split <;> rfl
  next absent =>
    rw [absent] at h
    dsimp only at h ⊢
    split
    · rfl
    next ok =>
      rw [ok] at h
      cases h

theorem byKind_add (h : vv.byKind k = some q) : (vv.add p).1.byKind k = some q := by
  unfold add
  split
  · split <;> exact h
  next absent =>
    dsimp only
    split
    · exact h
    · rw [byKind_setKind, if_neg]
      · exact h
      · rintro rfl
        rw [h] at absent
        cases absent

theorem mem_byKind_add (h : (vv.add p).1.byKind k = some q) :
    vv.byKind k = some q ∨ (q = p ∧ k = p.vote.kind) := by
  unfold add at h
  split at h
  · split at h <;> exact .inl h
  · dsimp only at h
    split at h
    · exact .inl h
    · rw [byKind_setKind] at h
      split at h
      next hk =>
        exact .inr ⟨(Option.some.inj h).symm, hk⟩
      · exact .inl h

/-- A vote that goes with every recorded one, as these go with each other, does not clash. -/
theorem add_compatible (S : Vote → Prop) (compatible : ∀ a b, S a → S b → Compatible a b)
    (recorded : ∀ k q, vv.byKind k = some q →
      S q.vote ∧ q.vote.kind = k ∧ q.vote.slot = p.vote.slot)
    (hp : S p.vote) : (vv.add p).2.2 = none := by
  unfold add
  split
  next old hold =>
    obtain ⟨hs, kind, slot⟩ := recorded _ _ hold
    rw [if_neg]
    rintro ⟨hk, ne⟩
    have same := (compatible _ _ hs hp slot).1 (by rw [kind]; rcases hk with h | h <;> simp [h])
      (by rcases hk with h | h <;> simp [h])
    exact ne (congrArg₂ Vote.mk kind same)
  · have recorded' : ∀ k q, (vv.setKind p.vote.kind (some p)).byKind k = some q →
        S q.vote ∧ q.vote.kind = k ∧ q.vote.slot = p.vote.slot := by
      intro k q hq
      rw [byKind_setKind] at hq
      split at hq
      next hk =>
        cases hq
        exact ⟨hp, hk.symm, rfl⟩
      · exact recorded k q hq
    have none_clashes : (vv.setKind p.vote.kind (some p)).checkInvariants = none := by
      refine checkInvariants_eq_none.mpr fun f hf => ?_
      obtain ⟨sf, kf, slotf⟩ := recorded' .finalize f hf
      refine ⟨fun n hn => ?_, ?_⟩
      · obtain ⟨sn, kn, slotn⟩ := recorded' .notarize n hn
        exact (compatible _ _ sn sf (slotn.trans slotf.symm)).1 (by simp [kn]) (by simp [kf])
      · by_contra present
        obtain ⟨q, hq⟩ := Option.ne_none_iff_exists'.mp present
        obtain ⟨sq, kq, slotq⟩ := recorded' .skip q hq
        exact (compatible _ _ sf sq (slotf.trans slotq.symm)).2 kf kq
    dsimp only
    rw [none_clashes]

theorem mem_buildCertificate {cfg : Config} {votes : Nat → ValidatorVotes} {v : Vote}
    {s : VoteSignature} (h : s ∈ (cfg.buildCertificate votes v).signatures) :
    ∃ p, (votes s.validatorIndex).byKind v.kind = some p ∧ p.cert = none ∧ p.vote = v ∧
      p.sig = s.signature := by
  obtain ⟨i, -, hi⟩ := List.mem_filterMap.mp h
  obtain ⟨sig, hsig, rfl⟩ := Option.map_eq_some_iff.mp hi
  unfold signatureOn at hsig
  split at hsig
  next p hp =>
    split at hsig
    next direct =>
      cases hsig
      exact ⟨p, hp, by simpa [Proven.fromCert] using direct.1, direct.2, rfl⟩
    · cases hsig
  · cases hsig

end ValidatorVotes

theorem PoolSlot.setSaving_keeps (slot : PoolSlot) (k : VoteKind) (b : Bool) :
    (slot.setSaving k b).votes = slot.votes ∧ (slot.setSaving k b).weightOf = slot.weightOf ∧
      (slot.setSaving k b).certByKind = slot.certByKind ∧
      (slot.setSaving k b).availableBase = slot.availableBase := by
  unfold setSaving
  split <;> exact ⟨rfl, rfl, rfl, rfl⟩

theorem PoolSlot.addWeight_keeps (slot : PoolSlot) (v : Vote) (w : UInt64) :
    (slot.addWeight v w).votes = slot.votes ∧
      (slot.addWeight v w).certByKind = slot.certByKind ∧
      (slot.addWeight v w).savingByKind = slot.savingByKind ∧
      (slot.addWeight v w).availableBase = slot.availableBase := by
  unfold addWeight
  split <;> exact ⟨rfl, rfl, rfl, rfl⟩

namespace Engine

variable {cfg : Config} {e : Engine} {cert : Certificate} {i : Nat} {v : Vote} {sig : Signature}
  {P : Engine → Prop}

theorem handleCertificate_keep (same : P e)
    (saved : ∀ slot, e.pool.slots.get? cert.vote.slot = some slot → slot.needs cert.vote = true →
      P { e.setSlot cert.vote.slot (slot.setSaving cert.vote.kind true) with
        journal := e.journal.saveCertificate cert }) : P (e.handleCertificate cert) := by
  unfold handleCertificate
  split
  · exact same
  next slot here =>
    split
    next needs =>
      exact saved slot here needs
    · exact same

/-- A vote is reported, or entered and counted, and may complete a certificate. -/
theorem applyVote_keep {tolerate : Bool} (same : P e)
    (fatal : tolerate = false → P (e.fatal (.conflictingVotes v)))
    (report : ∀ slot ev, e.pool.slots.get? v.slot = some slot →
      ((slot.votes i).add ⟨v, sig, none⟩).2.2 = some ev →
        P (e.reportMisbehavior i (ev.misbehavior i)))
    (noted : P (e.emit (.applied v)))
    (entered : ∀ e₁ slot vv, P e₁ → e₁.pool.slots.get? v.slot = some slot →
      (slot.votes i).add ⟨v, sig, none⟩ = (vv, true, none) →
        P (e₁.setSlot v.slot
          ({ slot with votes := Function.update slot.votes i vv }.addWeight v (cfg.weight i))))
    (certified : ∀ e₁ slot, P e₁ → e₁.pool.slots.get? v.slot = some slot →
      cfg.threshold ≤ slot.weightOf v →
        P (e₁.handleCertificate (cfg.buildCertificate slot.votes v))) :
    P (e.applyVote cfg i v sig tolerate).1 := by
  unfold applyVote
  split
  · exact same
  next slot here =>
    dsimp only
    split
    next ev clash =>
      split
      next own =>
        exact fatal (by simpa using own.2)
      · exact report slot ev here clash
    next quiet =>
      split
      next applied =>
        have added : (slot.votes i).add ⟨v, sig, none⟩ =
            (((slot.votes i).add ⟨v, sig, none⟩).1, true, none) := by
          rw [← applied, ← quiet]
        have marked : P (if cfg.localIndex = some i then e.emit (.applied v) else e) ∧
            (if cfg.localIndex = some i then e.emit (.applied v) else e).pool = e.pool := by
          split
          · exact ⟨noted, rfl⟩
          · exact ⟨same, rfl⟩
        generalize (if cfg.localIndex = some i then _ else e : Engine) = e₁ at marked
        rw [← marked.2] at here
        have counted := entered e₁ slot _ marked.1 here added
        unfold onVoteApplied
        dsimp only
        split
        next enough =>
          exact certified _ _ counted (SlotMap.get?_set_self (SlotMap.le_of_get? here)) enough.1
        · exact counted
      · exact same

/-- The votes a saved certificate proves are entered one by one, and reported if they clash. Then
the certificate is stored. -/
theorem finishCertificateSave_keep {R : Engine → PoolSlot → Prop} {res : SaveResult} (same : P e)
    (fatal : P (e.fatal .certificateJournal))
    (first : ∀ slot, e.pool.slots.get? cert.vote.slot = some slot → R e slot)
    (report : ∀ e₁ slot s ev, R e₁ slot → s ∈ cert.signatures →
      ((slot.votes s.validatorIndex).add ⟨cert.vote, s.signature, some cert⟩).2.2 = some ev →
        R (e₁.reportMisbehavior s.validatorIndex (ev.misbehavior s.validatorIndex)) slot)
    (enter : ∀ e₁ slot s, R e₁ slot → s ∈ cert.signatures → R e₁ { slot with
      votes := Function.update slot.votes s.validatorIndex
        ((slot.votes s.validatorIndex).add ⟨cert.vote, s.signature, some cert⟩).1 })
    (store : ∀ e₁ slot, R e₁ slot → e₁.pool = e.pool →
      (e₁.setSlot cert.vote.slot slot).pool.slots.get? cert.vote.slot = some slot →
        P ((e₁.setSlot cert.vote.slot slot).storeSavedCertificate cfg slot cert)) :
    P (e.finishCertificateSave cfg cert res) := by
  have extracted (l : List VoteSignature) (sub : l ⊆ cert.signatures) (e₁ : Engine)
      (slot : PoolSlot) (h : R e₁ slot) :
      R (e₁.extractVotes slot cert l).1 (e₁.extractVotes slot cert l).2 ∧
        (e₁.extractVotes slot cert l).1.pool = e₁.pool := by
    induction l generalizing e₁ slot with
    | nil => exact ⟨h, rfl⟩
    | cons s l ih =>
      have mem : s ∈ cert.signatures := sub List.mem_cons_self
      have rest : l ⊆ cert.signatures := fun _ ht => sub (List.mem_cons_of_mem _ ht)
      unfold extractVotes
      dsimp only
      split
      next ev clash =>
        exact ih rest _ _ (enter _ _ s (report e₁ slot s ev h mem clash) mem)
      · exact ih rest _ _ (enter e₁ slot s h mem)
  unfold finishCertificateSave
  split
  · exact fatal
  · split
    · exact same
    next slot here =>
      obtain ⟨entered, pool⟩ := extracted cert.signatures (List.Subset.refl _) e slot
        (first slot here)
      refine store _ _ entered pool (SlotMap.get?_set_self ?_)
      rw [pool]
      exact SlotMap.le_of_get? here

end Engine

end Gton.Simplex
