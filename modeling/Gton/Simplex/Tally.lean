import Gton.Simplex.Counting
import Gton.Simplex.Gating

/-!
# Records and the weights counted from them

Every record carries a signature that was checked, and every counter is the weight of the
validators whose own signed vote stands in the slot. So a certificate assembled from such
records passes verification without being verified. Counters are `uint64`.
-/

namespace Gton.Simplex

open List Function

/-- The signer's signatures are valid under the local validator's roster key. -/
def Config.SignerValid (cfg : Config) : Prop :=
  ∀ i n v sig, cfg.localIndex = some i → cfg.sign n (cfg.votePayload v) = some sig →
    cfg.verifyVote i v sig = true

/-- The evidence of a record of validator `i` holds, and the vote was made. -/
def Proven.Proves (cfg : Config) (made : Nat → Vote → Prop) (i : Nat) (p : Proven) : Prop :=
  made i p.vote ∧
    match p.cert with
    | none => cfg.verifyVote i p.vote p.sig = true
    | some c => cfg.verifyCertificate c = .ok () ∧ c.vote = p.vote ∧ ⟨i, p.sig⟩ ∈ c.signatures

/-- The certificate verifies, and its signers made the vote. -/
def Certificate.Vouched (cfg : Config) (made : Nat → Vote → Prop) (c : Certificate) : Prop :=
  cfg.verifyCertificate c = .ok () ∧ ∀ s ∈ c.signatures, made s.validatorIndex c.vote

variable {made : Nat → Vote → Prop} {v : Vote} {sig : Signature} {vv : ValidatorVotes}
  {cert : Certificate}
  {bs : BootstrapState} {e : Engine}

theorem Config.lt_of_verifyVote {cfg : Config} {i : Nat}
    (h : cfg.verifyVote i v sig = true) : i ∈ cfg.roster := by
  unfold verifyVote at h
  split at h
  · cases h
  next found =>
    exact Finset.mem_range.mpr (List.getElem?_eq_some_iff.mp found).1

theorem Config.decoded_of_verifyCertificate {cfg : Config} {c : Certificate}
    (h : cfg.verifyCertificate c = .ok ()) : c.vote.decoded = c.vote := by
  unfold verifyCertificate at h
  split at h
  · cases h
  next shape =>
    obtain ⟨⟨kind, slot, hash⟩, sigs⟩ := c
    unfold validateCertificateVote at shape
    cases kind with
    | notarize => rfl
    | finalize => rfl
    | skip =>
      dsimp only at shape
      split at shape
      · cases shape
      next zero =>
        rw [show hash = 0 from not_not.mp zero]
        rfl

/-- The validators whose own signed vote in the slot is exactly `v`. -/
def PoolSlot.signers (slot : PoolSlot) (v : Vote) : Set Nat :=
  {i | ∃ p, (slot.votes i).byKind v.kind = some p ∧ p.cert = none ∧ p.vote = v}

theorem ValidatorVotes.signatureOn_isSome :
    (vv.signatureOn v).isSome = true ↔
      ∃ p, vv.byKind v.kind = some p ∧ p.cert = none ∧ p.vote = v := by
  unfold signatureOn
  split
  next p here =>
    rw [here]
    by_cases direct : p.cert = none <;> by_cases same : p.vote = v <;>
      simp [Proven.fromCert, direct, same]
  next absent =>
    simp [absent]

/-- What a slot records and counts for slot number `s`. -/
structure PoolSlot.Kept (cfg : Config) (made : Nat → Vote → Prop) (s : UInt32) (slot : PoolSlot) :
    Prop where
  recorded : ∀ i k p, (slot.votes i).byKind k = some p →
    p.vote.kind = k ∧ p.vote.slot = s ∧ p.vote.decoded = p.vote ∧ p.Proves cfg made i
  counted : ∀ v, v.slot = s → v.decoded = v →
    (slot.weightOf v).toNat =
      Quorum.weight cfg.roster cfg.power (slot.signers v) % 2 ^ 64

namespace PoolSlot

variable {cfg : Config} {s : UInt32} {slot slot' : PoolSlot} {idx : Nat} {p : Proven}

theorem Kept.congr (h : Kept cfg made s slot) (votes : slot'.votes = slot.votes)
    (weights : slot'.weightOf = slot.weightOf) : Kept cfg made s slot' where
  recorded i k p hp := h.recorded i k p (votes ▸ hp)
  counted v here decoded := by
    rw [weights, h.counted v here decoded]
    unfold signers
    rw [votes]

theorem kept_default (cfg : Config) (s : UInt32) : Kept cfg made s default where
  recorded i k p hp := by
    rw [show (default : PoolSlot).votes i = {} from rfl, ValidatorVotes.byKind_empty] at hp
    cases hp
  counted v _ _ := by
    have nobody : (default : PoolSlot).signers v = {i | (fun _ => false) i = true} := by
      ext i
      simp [signers, show (default : PoolSlot).votes i = {} from rfl]
    have zero : (default : PoolSlot).weightOf v = 0 := by
      unfold weightOf
      split <;> rfl
    rw [nobody, Config.roster, Quorum.weight_range, zero]
    simp

theorem votes_setCert (slot : PoolSlot) (cert : Certificate) :
    (slot.setCert cert).votes = slot.votes ∧ (slot.setCert cert).weightOf = slot.weightOf := by
  unfold setCert
  split <;> exact ⟨rfl, rfl⟩

theorem votes_addAvailableBase (slot : PoolSlot) (q : ParentID) :
    (slot.addAvailableBase q).votes = slot.votes ∧
      (slot.addAvailableBase q).weightOf = slot.weightOf := by
  unfold addAvailableBase
  split
  · exact ⟨rfl, rfl⟩
  · split <;> exact ⟨rfl, rfl⟩

theorem weightOf_addWeight {a : Vote} (w : UInt64) (va : v.decoded = v) (aa : a.decoded = a)
    (same : a.slot = v.slot) :
    (slot.addWeight v w).weightOf a = if a = v then slot.weightOf v + w else slot.weightOf a := by
  by_cases eq : a = v
  · subst eq
    rw [if_pos rfl]
    unfold addWeight weightOf
    cases a.kind <;> simp
  · rw [if_neg eq]
    have other (kind : a.kind = v.kind) : a.id ≠ v.id := fun id => eq (congrArg₂ Vote.mk kind id)
    unfold addWeight weightOf
    cases kv : v.kind with
    | skip =>
      cases ka : a.kind with
      | skip =>
        refine absurd ?_ eq
        rw [← va, ← aa]
        unfold Vote.decoded
        rw [kv, ka, same]
      | _ => rfl
    | notarize =>
      cases ka : a.kind with
      | notarize => exact update_of_ne (other (ka.trans kv.symm)) _ _
      | _ => rfl
    | finalize =>
      cases ka : a.kind with
      | finalize => exact update_of_ne (other (ka.trans kv.symm)) _ _
      | _ => rfl

section

variable (h : Kept cfg made s slot)
  (votes : slot'.votes =
    Function.update slot.votes idx ((slot.votes idx).setKind p.vote.kind (some p)))
include h votes

omit h in
theorem signers_entered (fresh : (slot.votes idx).byKind p.vote.kind = none) (v : Vote) :
    slot'.signers v =
      if p.cert = none ∧ p.vote = v then insert idx (slot.signers v) else slot.signers v := by
  have absent (same : v.kind = p.vote.kind) : idx ∉ slot.signers v := by
    rintro ⟨q, hq, -⟩
    rw [same, fresh] at hq
    cases hq
  ext i
  by_cases here : i = idx
  · subst here
    have record : i ∈ slot'.signers v ↔
        ∃ q, (if v.kind = p.vote.kind then some p else (slot.votes i).byKind v.kind) = some q ∧
          q.cert = none ∧ q.vote = v := by
      unfold signers
      rw [votes, Set.mem_ofPred_eq, update_self, ValidatorVotes.byKind_setKind]
    rw [record]
    by_cases same : v.kind = p.vote.kind
    · rw [if_pos same]
      constructor
      · rintro ⟨q, eq, direct⟩
        cases eq
        rw [if_pos direct]
        exact Set.mem_insert _ _
      · intro mem
        split at mem
        next direct =>
          exact ⟨p, rfl, direct⟩
        · exact absurd mem (absent same)
    · have differs : ¬ (p.cert = none ∧ p.vote = v) := fun h => same (h.2 ▸ rfl)
      rw [if_neg same, if_neg differs]
      exact Iff.rfl
  · have record : i ∈ slot'.signers v ↔ i ∈ slot.signers v := by
      unfold signers
      rw [votes, Set.mem_ofPred_eq, update_of_ne here]
      exact Iff.rfl
    rw [record]
    split
    · simp [here]
    · exact Iff.rfl

theorem recorded_entered (here : p.vote.slot = s) (decoded : p.vote.decoded = p.vote)
    (proves : p.Proves cfg made idx) (i : Nat) (k : VoteKind) (q : Proven)
    (hq : (slot'.votes i).byKind k = some q) :
    q.vote.kind = k ∧ q.vote.slot = s ∧ q.vote.decoded = q.vote ∧ q.Proves cfg made i := by
  rw [votes] at hq
  by_cases own : i = idx
  · subst own
    rw [update_self, ValidatorVotes.byKind_setKind] at hq
    split at hq
    next kind =>
      cases hq
      exact ⟨kind.symm, here, decoded, proves⟩
    · exact h.recorded i k q hq
  · rw [update_of_ne own] at hq
    exact h.recorded i k q hq

omit votes in
theorem Kept.enter {ev : Option ConflictEvidence} (added : (slot.votes idx).add p = (vv, true, ev))
    (direct : p.cert = none) (here : p.vote.slot = s) (decoded : p.vote.decoded = p.vote)
    (proves : p.Proves cfg made idx) :
    Kept cfg made s (({ slot with votes := Function.update slot.votes idx vv } : PoolSlot).addWeight
      p.vote (cfg.weight idx)) := by
  obtain ⟨fresh, eq, -⟩ := ValidatorVotes.add_applied added
  have votes : (({ slot with votes := Function.update slot.votes idx vv } : PoolSlot).addWeight
      p.vote (cfg.weight idx)).votes =
        Function.update slot.votes idx ((slot.votes idx).setKind p.vote.kind (some p)) := by
    rw [(addWeight_keeps _ _ _).1, eq]
  refine ⟨recorded_entered h votes here decoded proves, fun v vs vd => ?_⟩
  have member : idx ∈ cfg.roster := by
    unfold Proven.Proves at proves
    rw [direct] at proves
    exact Config.lt_of_verifyVote proves.2
  have unsigned : idx ∉ slot.signers p.vote := by
    rintro ⟨q, hq, -⟩
    rw [fresh] at hq
    cases hq
  rw [weightOf_addWeight _ decoded vd (vs.trans here.symm), signers_entered votes fresh]
  by_cases same : v = p.vote
  · subst same
    rw [if_pos rfl, if_pos ⟨direct, rfl⟩, Quorum.weight_insert member unsigned, UInt64.toNat_add]
    change ((slot.weightOf p.vote).toNat + cfg.power idx) % 2 ^ 64 = _
    rw [h.counted _ vs vd, Nat.mod_add_mod]
  · rw [if_neg same, if_neg fun eq => same eq.2.symm]
    exact h.counted v vs vd

omit votes in
theorem Kept.extract (proved : p.cert ≠ none) (here : p.vote.slot = s)
    (decoded : p.vote.decoded = p.vote) (proves : p.Proves cfg made idx) :
    Kept cfg made s
      { slot with votes := Function.update slot.votes idx ((slot.votes idx).add p).1 } := by
  cases applied : ((slot.votes idx).add p).2.1 with
  | false =>
    rw [ValidatorVotes.add_unapplied applied, update_eq_self]
    exact h
  | true =>
    obtain ⟨fresh, eq, -⟩ := ValidatorVotes.add_applied
      (show (slot.votes idx).add p = (((slot.votes idx).add p).1, true, _) by rw [← applied])
    rw [eq]
    refine ⟨recorded_entered h rfl here decoded proves, fun v vs vd => ?_⟩
    rw [signers_entered rfl fresh, if_neg fun direct => proved direct.1]
    exact h.counted v vs vd

end

/-! ## Certificates assembled from the records -/

theorem signatures_buildCertificate (cfg : Config) (votes : Nat → ValidatorVotes) (v : Vote) :
    (cfg.buildCertificate votes v).signatures.map VoteSignature.validatorIndex =
      (List.range cfg.validators.length).filter fun i => ((votes i).signatureOn v).isSome := by
  unfold Config.buildCertificate
  induction List.range cfg.validators.length with
  | nil => rfl
  | cons i l ih => cases h : (votes i).signatureOn v <;> simp [h, ih]

theorem signedWeight_buildCertificate (cfg : Config) (slot : PoolSlot) (v : Vote) :
    signedWeight cfg.validators (cfg.buildCertificate slot.votes v).signatures =
      Quorum.weight cfg.roster cfg.power (slot.signers v) := by
  have signers : slot.signers v = {i | ((slot.votes i).signatureOn v).isSome = true} := by
    ext i
    exact ValidatorVotes.signatureOn_isSome.symm
  have power : (fun s : VoteSignature =>
      ((cfg.validators[s.validatorIndex]?).map fun v => v.weight.toNat).getD 0) =
      cfg.power ∘ VoteSignature.validatorIndex := by
    funext s
    rw [comp_apply, Config.power, Config.weight]
    cases cfg.validators[s.validatorIndex]? <;> rfl
  rw [signers, Config.roster, Quorum.weight_range, ← signatures_buildCertificate, map_map,
    signedWeight, power]

theorem Kept.verifies (h : Kept cfg made s slot) (here : v.slot = s) (decoded : v.decoded = v)
    (enough : cfg.threshold ≤ slot.weightOf v) :
    cfg.verifyCertificate (cfg.buildCertificate slot.votes v) = .ok () := by
  have indices := signatures_buildCertificate cfg slot.votes v
  have small : (cfg.buildCertificate slot.votes v).signatures.length ≤ cfg.validators.length := by
    rw [← length_map (f := VoteSignature.validatorIndex), indices]
    exact Nat.le_trans (length_filter_le _ _) (by simp)
  have weight :
      certificateWeight cfg.validators [] 0 (cfg.buildCertificate slot.votes v).signatures =
        .ok (slot.weightOf v) := by
    refine certificateWeight_ok_iff.mpr ⟨fun t ht => ⟨?_, by simp⟩, ?_, ?_⟩
    · have mem : t.validatorIndex ∈ (List.range cfg.validators.length).filter
          fun i => ((slot.votes i).signatureOn v).isSome := indices ▸ mem_map_of_mem ht
      exact mem_range.mp (mem_filter.mp mem).1
    · rw [indices]
      exact nodup_range.filter _
    · rw [signedWeight_buildCertificate, h.counted v here decoded]
      simp
  have valid : ∀ t ∈ (cfg.buildCertificate slot.votes v).signatures,
      cfg.verifyVote t.validatorIndex v t.signature = true := by
    intro t ht
    obtain ⟨p, hp, direct, rfl, sig⟩ := ValidatorVotes.mem_buildCertificate ht
    have proves := (h.recorded _ _ _ hp).2.2.2
    unfold Proven.Proves at proves
    rw [direct, sig] at proves
    exact proves.2
  have shape : validateCertificateVote v = .ok () := by
    unfold validateCertificateVote
    cases kind : v.kind with
    | skip =>
      rw [← decoded]
      unfold Vote.decoded
      rw [kind]
      rfl
    | _ => rfl
  unfold Config.verifyCertificate
  rw [show (cfg.buildCertificate slot.votes v).vote = v from rfl, shape]
  unfold Config.verifyCertificatePayload
  rw [if_neg (by omega), weight]
  dsimp only
  rw [if_neg (UInt64.not_lt.mpr enough)]
  exact cfg.verifySignatures_ok.mpr valid

theorem Kept.vouches (h : Kept cfg made s slot) (here : v.slot = s) (decoded : v.decoded = v)
    (enough : cfg.threshold ≤ slot.weightOf v) :
    (cfg.buildCertificate slot.votes v).Vouched cfg made := by
  refine ⟨h.verifies here decoded enough, fun t ht => ?_⟩
  obtain ⟨p, hp, -, rfl, -⟩ := ValidatorVotes.mem_buildCertificate ht
  exact (h.recorded _ _ _ hp).2.2.2.1

end PoolSlot

/-! ## Every slot of an engine -/

/-- A property of slots that does not depend on certificates, saves and bases. -/
structure Stable (P : UInt32 → PoolSlot → Prop) : Prop where
  cert : ∀ s slot cert, P s slot → P s (slot.setCert cert)
  saving : ∀ s slot k b, P s slot → P s (slot.setSaving k b)
  base : ∀ s slot q, P s slot → P s (slot.addAvailableBase q)

theorem Stable.kept (cfg : Config) (made : Nat → Vote → Prop) :
    Stable (PoolSlot.Kept cfg made) where
  cert _ slot c h := h.congr (slot.votes_setCert c).1 (slot.votes_setCert c).2
  saving _ slot k b h := h.congr (slot.setSaving_keeps k b).1 (slot.setSaving_keeps k b).2.1
  base _ slot q h := h.congr (slot.votes_addAvailableBase q).1 (slot.votes_addAvailableBase q).2

namespace Engine

variable {cfg : Config} {P : UInt32 → PoolSlot → Prop} {e : Engine}

theorem slots_advancePresent (e : Engine) : (e.advancePresent cfg).pool.slots = e.pool.slots := by
  rw [pool_advancePresent]

section

variable (stable : Stable P) (h : e.pool.slots.Each P)
include stable h

omit stable in
theorem finalizeSlot_each (cert : Certificate) : (e.finalizeSlot cfg cert).pool.slots.Each P := by
  have pruned := h.notifyFinalized cert.vote.slot
  unfold finalizeSlot
  dsimp only
  generalize hq : (if cfg.hasVoter then _ else _ : Engine) = e₁
  have slots : e₁.pool.slots = e.pool.slots.notifyFinalized cert.vote.slot := by
    rw [← hq]
    split <;> rfl
  change (if e₁.pool.now ≤ cert.vote.id.slot then _ else e₁ : Engine).pool.slots.Each P
  split
  · rw [slots_advancePresent]
    exact slots ▸ pruned
  · exact slots ▸ pruned

theorem addAvailableBase_each (s : UInt32) (q : ParentID) :
    (e.addAvailableBase s q).pool.slots.Each P :=
  h.modify fun slot hs => stable.base s slot q hs

theorem certTransition_each (slot : PoolSlot) (cert : Certificate) :
    (e.certTransition cfg slot cert).pool.slots.Each P := by
  unfold certTransition
  split
  · unfold onNotarCertificate
    dsimp only
    generalize hq : (if cfg.hasVoter then _ else _ : Engine) = e₁
    have same : e₁.pool.slots.Each P := by
      rw [← hq]
      split <;> exact h
    split
    · exact same
    · rw [pool_fatal]
      exact same
    · rw [slots_advancePresent]
      exact addAvailableBase_each stable same _ _
  · unfold onSkipCertificate
    dsimp only
    split
    · exact h
    · rw [pool_fatal]
      exact h
    · rw [slots_advancePresent]
      split
      · exact h.modify fun slot hs => stable.base _ slot _ hs
      · exact h
  · unfold onFinalCertificate
    dsimp only
    split
    · rw [pool_fatal]
      exact h
    · split
      · rw [pool_fatal]
        exact h
      · split
        · exact finalizeSlot_each h cert
        · split
          · exact h
          · rw [pool_fatal]
            exact h
          · exact finalizeSlot_each (addAvailableBase_each stable h _ _) cert

theorem storeSavedCertificate_each {slot : PoolSlot}
    (here : P cert.vote.slot slot) : (e.storeSavedCertificate cfg slot cert).pool.slots.Each P := by
  unfold storeSavedCertificate
  dsimp only
  split
  · rw [pool_fatal]
    exact h
  · generalize hq : (if e.suppressCertBroadcast then _ else _ : Engine) = e₁
    have before : e₁.pool.slots.Each P := by
      rw [← hq]
      split <;> exact h
    have stored : ((e₁.setSlot cert.vote.slot (slot.setCert cert)).emit
        (.certStored cert)).pool.slots.Each P := before.set (stable.cert _ _ _ here)
    have moved : (((e₁.setSlot cert.vote.slot (slot.setCert cert)).emit
        (.certStored cert)).certTransition cfg (slot.setCert cert) cert).pool.slots.Each P :=
      certTransition_each stable stored _ _
    split
    · exact moved
    · rw [resolveParentWaits, (Settles.resolveLoop _ _ _).pool]
      exact moved

end

end Engine

/-! ## The journal -/

namespace Journal

variable {j : Journal} {c : Certificate} {v w : Vote}

theorem mem_voteSaves_saveOurVote (h : w ∈ (j.saveOurVote v).voteSaves) :
    w ∈ j.voteSaves ∨ w = v := by
  unfold saveOurVote at h
  split at h
  · exact .inl h
  · simpa using h

theorem certSaves_saveOurVote : (j.saveOurVote v).certSaves = j.certSaves := by
  unfold saveOurVote
  split <;> rfl

theorem certs_saveOurVote : (j.saveOurVote v).certs = j.certs := by
  unfold saveOurVote
  split <;> rfl

theorem voteSaves_saveCertificate : (j.saveCertificate c).voteSaves = j.voteSaves := by
  unfold saveCertificate
  split <;> rfl

theorem mem_certSaves_saveCertificate {save : CertSave}
    (h : save ∈ (j.saveCertificate c).certSaves) : save ∈ j.certSaves ∨ save.cert = c := by
  unfold saveCertificate at h
  split at h
  all_goals
    rcases mem_append.mp h with h | h
    · exact .inl h
    · exact .inr (congrArg CertSave.cert (mem_singleton.mp h))

theorem mem_certs_saveCertificate {d : Certificate}
    (h : d ∈ (j.saveCertificate c).certs.map CertRecord.cert) :
    d ∈ j.certs.map CertRecord.cert ∨ d = c := by
  unfold saveCertificate at h
  split at h
  · exact .inl h
  · simpa using h

end Journal

/-! ## The invariant -/

/-- What an input brings under a validator's key that validator made; the local validator made the
own votes whose save is answered. -/
def Input.Genuine (cfg : Config) (made : Nat → Vote → Prop) : Input → Prop
  | .message _ from_ m =>
    (∀ p, m.votes from_ p → cfg.verifyVote p.idx p.vote p.sig = true → made p.idx p.vote) ∧
      ∀ c, m.certifies c → ∀ s ∈ c.signatures,
        cfg.verifyVote s.validatorIndex c.vote s.signature = true → made s.validatorIndex c.vote
  | .voteSaved v _ => ∀ i, cfg.localIndex = some i → made i v
  | _ => True

/-- The journal holds own votes that were made and certificates whose signers made the vote. -/
structure BootstrapState.Genuine (cfg : Config) (made : Nat → Vote → Prop) (bs : BootstrapState) :
    Prop where
  votes : ∀ v ∈ bs.ourVotes, ∀ i, cfg.localIndex = some i → made i v
  certs : ∀ c ∈ bs.certificates, ∀ s ∈ c.signatures,
    cfg.verifyVote s.validatorIndex c.vote s.signature = true → made s.validatorIndex c.vote

namespace Engine

variable {cfg : Config} {e : Engine}

/-- Every slot is kept, what waits for its signature check or its save is well formed and was made,
and every certificate of the journal is old or verifies. -/
structure Recorded (cfg : Config) (made : Nat → Vote → Prop) (old : Certificate → Prop)
    (e : Engine) : Prop where
  slots : e.pool.slots.Each (PoolSlot.Kept cfg made)
  inbox : ∀ p ∈ e.pendingVerify, p.vote.decoded = p.vote ∧
    (cfg.verifyVote p.idx p.vote p.sig = true → made p.idx p.vote)
  voteSaves : ∀ v ∈ e.journal.voteSaves, v.decoded = v
  certSaves : ∀ save ∈ e.journal.certSaves, save.cert.Vouched cfg made
  certs : ∀ c ∈ e.journal.certs.map CertRecord.cert, old c ∨ cfg.verifyCertificate c = .ok ()

/-- What a grant hands over is well formed and was made. -/
structure Grant.Fair (cfg : Config) (made : Nat → Vote → Prop) (g : Grant) : Prop where
  own : ∀ v, g.own v → v.decoded = v ∧ ∀ i, cfg.localIndex = some i → made i v
  inbox : ∀ p, g.inbox p → p.vote.decoded = p.vote ∧
    (cfg.verifyVote p.idx p.vote p.sig = true → made p.idx p.vote)
  arrives : ∀ p, g.arrives p → cfg.verifyVote p.idx p.vote p.sig = true → made p.idx p.vote
  receives : ∀ c, g.receives c → cfg.verifyCertificate c = .ok () → c.Vouched cfg made
  cert : ∀ c, g.cert c → c.Vouched cfg made

namespace Recorded

variable {old : Certificate → Prop} {g : Grant} {e e' : Engine}

theorem books (h : Recorded cfg made old e) (slots : e'.pool.slots.Each (PoolSlot.Kept cfg made))
    (same : SameBooks e e') : Recorded cfg made old e' where
  slots := slots
  inbox := same.pendingVerify ▸ h.inbox
  voteSaves := same.voteSaves ▸ h.voteSaves
  certSaves := same.certSaves ▸ h.certSaves
  certs := same.certs ▸ h.certs

theorem settles (h : Recorded cfg made old e) (s : Settles e e') : Recorded cfg made old e' :=
  h.books (s.pool ▸ h.slots) s.toSameBooks

theorem save (h : Recorded cfg made old e) (vouched : cert.Vouched cfg made) :
    Recorded cfg made old (e.handleCertificate cert) := by
  apply handleCertificate_keep h
  intro slot here _
  refine ⟨h.slots.set ((Stable.kept cfg made).saving _ _ _ _ (h.slots _ _ here)), h.inbox, ?_,
    fun save mem => ?_, fun c mem => ?_⟩
  · rw [Journal.voteSaves_saveCertificate]
    exact h.voteSaves
  · rcases Journal.mem_certSaves_saveCertificate mem with old | new
    · exact h.certSaves save old
    · exact new ▸ vouched
  · rcases Journal.mem_certs_saveCertificate mem with old | rfl
    · exact h.certs c old
    · exact .inr vouched.1

/-- A signed vote enters its slot; the certificate it completes verifies. -/
theorem apply (h : Recorded cfg made old e) {tolerate : Bool}
    (decoded : v.decoded = v) (valid : cfg.verifyVote idx v sig = true) (known : made idx v) :
    Recorded cfg made old (e.applyVote cfg idx v sig tolerate).1 := by
  apply applyVote_keep h
  · exact fun _ => h.books (by rw [pool_fatal]; exact h.slots) (Inner.fatal _ _).toSameBooks
  · exact fun _ _ _ _ => h.books h.slots { SameBooks.refl e with }
  · exact h.books h.slots { SameBooks.refl e with }
  · intro e₁ slot vv same here added
    have kept := (same.slots _ _ here).enter added rfl rfl decoded ⟨known, valid⟩
    exact same.books (same.slots.set kept) { SameBooks.refl e₁ with }
  · intro e₁ slot same here enough
    exact same.save ((same.slots _ _ here).vouches rfl decoded enough)

section

variable (h : Recorded cfg made old e) (signer : cfg.SignerValid)
include h signer

omit signer in
theorem finish {res : SaveResult} (vouched : cert.Vouched cfg made) :
    Recorded cfg made old (e.finishCertificateSave cfg cert res) := by
  refine h.books ?_ (.finishCertificateSave e cert res)
  apply finishCertificateSave_keep (P := fun e => e.pool.slots.Each (PoolSlot.Kept cfg made))
    (R := fun _ slot => PoolSlot.Kept cfg made cert.vote.slot slot) h.slots
  · rw [pool_fatal]
    exact h.slots
  · exact fun slot here => h.slots _ _ here
  · exact fun _ _ _ _ kept _ _ => kept
  · exact fun _ _ _ kept mem =>
      kept.extract (by simp) rfl (Config.decoded_of_verifyCertificate vouched.1)
        ⟨vouched.2 _ mem, vouched.1, rfl, mem⟩
  · intro e₁ slot kept pool _
    have written : (e₁.setSlot cert.vote.slot slot).pool.slots.Each (PoolSlot.Kept cfg made) := by
      unfold setSlot
      rw [pool]
      exact h.slots.set kept
    exact storeSavedCertificate_each (.kept cfg made) written kept

theorem tick (fair : g.Fair cfg made) (t : Tick cfg g e e') : Recorded cfg made old e' := by
  cases t with
  | plain p =>
    exact ⟨p.pool ▸ h.slots, fun q hq => h.inbox q (p.pendingVerify hq),
      fun v hv => h.voteSaves v (p.voteSaves hv), fun s hs => h.certSaves s (p.certSaves hs),
      p.certs ▸ h.certs⟩
  | fatal => exact h.books (by rw [pool_fatal]; exact h.slots) (Inner.fatal _ _).toSameBooks
  | stop => exact { h with }
  | receive decoded arrives =>
    refine { h with inbox := fun q hq => ?_ }
    rcases mem_append.mp hq with hq | hq
    · exact h.inbox q hq
    · rw [mem_singleton.mp hq]
      exact ⟨decoded, fair.arrives _ arrives⟩
  | cast decoded =>
    refine ⟨h.slots, h.inbox, fun w hw => ?_, ?_, ?_⟩
    · rcases Journal.mem_voteSaves_saveOurVote hw with hw | rfl
      · exact h.voteSaves w hw
      · exact decoded
    · rw [Journal.certSaves_saveOurVote]
      exact h.certSaves
    · rw [Journal.certs_saveOurVote]
      exact h.certs
  | apply tolerate _ signed =>
    rcases signed with ⟨own, local_, n, made⟩ | ⟨⟨src, here⟩, valid⟩
    · obtain ⟨decoded, known⟩ := fair.own _ own
      exact h.apply decoded (signer _ n _ _ local_ made) (known _ local_)
    · obtain ⟨decoded, known⟩ := fair.inbox _ here
      exact h.apply decoded valid (known valid)
  | save received valid => exact h.save (fair.receives _ received valid)
  | accept => exact h.settles (.acceptCandidate _ _)
  | moveOn _ queue =>
    have popped (l : List Deferred) : Recorded cfg made old { e with pending := l } := { h with }
    exact (popped _).settles (.onParentWaitDone _ _ _)
  | finish res _ held => exact h.finish (fair.cert _ held)
  | store _ held here =>
    exact h.books (storeSavedCertificate_each (.kept cfg made) h.slots (h.slots _ _ here))
      (.storeSavedCertificate _ _ _)
  | advance =>
    exact h.books (by rw [slots_advancePresent]; exact h.slots)
      (Inner.advancePresent _).toSameBooks

theorem ticks (fair : g.Fair cfg made) (t : Ticks cfg g e e') : Recorded cfg made old e' :=
  t.keep (fun h t => h.tick signer fair t) h

omit signer in
theorem fair {input : Input} (genuine : input.Genuine cfg made) :
    (e.hands input).Fair cfg made where
  own := by
    rintro v ⟨_, rfl, saved⟩
    exact ⟨h.voteSaves v saved, genuine⟩
  inbox p here := h.inbox p here
  arrives := by
    rintro p ⟨v, same, rfl⟩
    exact genuine.1 p ⟨rfl, same, rfl⟩
  receives := by
    rintro _ ⟨_, _, d, rfl, rfl⟩ valid
    exact ⟨valid, fun s hs =>
      genuine.2 _ rfl s hs (cfg.verifyVote_of_verifyCertificate valid hs)⟩
  cert := fun _ ⟨_, _, saved⟩ => h.certSaves _ saved

theorem step (t : Time) {input : Input} (genuine : input.Genuine cfg made) :
    Recorded cfg made old (e.step cfg t input) :=
  h.ticks signer (h.fair genuine) (step_ticks e t input)

end

end Recorded

theorem new_recorded (cfg : Config) (params : Params) (clock : Time) (bs : BootstrapState)
    (trace : List Event) : Recorded cfg made (· ∈ bs.certificates) (new params clock bs trace) where
  slots s slot here := by
    cases here
    exact PoolSlot.kept_default cfg s
  inbox _ h := by cases h
  voteSaves _ h := by cases h
  certSaves _ h := by cases h
  certs c mem := by
    obtain ⟨r, hr, rfl⟩ := mem_map.mp mem
    obtain ⟨c, hc, rfl⟩ := mem_map.mp hr
    exact .inl hc

theorem prepare_recorded (cfg : Config) (params : Params) (clock : Time) (bs : BootstrapState)
    (trace : List Event) :
    Recorded cfg made (· ∈ bs.certificates)
      ((new params clock bs trace).prepare cfg bs.ourVotes) := by
  have fresh : Recorded cfg made (· ∈ bs.certificates) _ := new_recorded cfg params clock bs trace
  have voter : Recorded cfg made (· ∈ bs.certificates)
      (if cfg.hasVoter then (new params clock bs trace).bootstrapVoter cfg bs.ourVotes
        else new params clock bs trace) := by
    split
    · exact fresh.books fresh.slots { SameBooks.refl _ with }
    · exact fresh
  exact voter.books (addAvailableBase_each (.kept cfg made) voter.slots 0 genesis)
    { SameBooks.refl _ with }

theorem journalGrant_fair (genuine : bs.Genuine cfg made)
    (decoded : ∀ v ∈ bs.ourVotes, v.decoded = v)
    (valid : ∀ c ∈ bs.certificates, cfg.verifyCertificate c = .ok ()) :
    (journalGrant bs).Fair cfg made where
  own v hv := ⟨decoded v hv, genuine.votes v hv⟩
  inbox _ absent := absent.elim
  arrives _ absent := absent.elim
  receives _ absent := absent.elim
  cert c hc := ⟨valid c hc, fun s hs =>
    genuine.certs c hc s hs (cfg.verifyVote_of_verifyCertificate (valid c hc) hs)⟩

theorem start_recorded (signer : cfg.SignerValid) (genuine : bs.Genuine cfg made)
    (params : Params) (clock : Time) (trace : List Event)
    (decoded : ∀ v ∈ bs.ourVotes, v.decoded = v) :
    Recorded cfg made (· ∈ bs.certificates) (start cfg params clock bs trace).1 := by
  rcases start_ticks cfg params clock bs trace with rejected | ⟨valid, ticks⟩
  · rw [rejected]
    exact new_recorded cfg params clock bs trace
  · exact (prepare_recorded cfg params clock bs trace).ticks signer
      (journalGrant_fair genuine decoded valid) ticks

end Engine

theorem Run.recorded {cfg : Config} {admits : Input → Prop}
    (signer : cfg.SignerValid) (decoded : ∀ v ∈ bs.ourVotes, v.decoded = v)
    (journal : bs.Genuine cfg made) (genuine : ∀ input, admits input → input.Genuine cfg made)
    (h : Run cfg bs admits e) : e.Recorded cfg made (· ∈ bs.certificates) := by
  induction h with
  | start params clock => exact Engine.start_recorded signer journal params clock [] decoded
  | step t _ admitted ih => exact ih.step signer t (genuine _ admitted)

theorem Input.genuine_any (cfg : Config) (input : Input) : input.Genuine cfg fun _ _ => True := by
  cases input <;> simp [Genuine]

/-- In every state of a run each counter is the weight of the validators whose own signed vote
it counts, so a certificate assembled when the counter reaches the threshold verifies; and every
certificate the engine has saved verifies. -/
theorem assembled_certificates_verify {cfg : Config} {bs : BootstrapState} {e : Engine}
    (signer : cfg.SignerValid) (decoded : ∀ v ∈ bs.ourVotes, v.decoded = v)
    (h : Run cfg bs (fun _ => True) e) :
    (∀ s slot, e.pool.slots.get? s = some slot → ∀ v : Vote, v.slot = s → v.decoded = v →
      (slot.weightOf v).toNat =
          Quorum.weight cfg.roster cfg.power (slot.signers v) % 2 ^ 64 ∧
        (∑ i ∈ cfg.roster, cfg.power i < 2 ^ 64 →
          (slot.weightOf v).toNat = Quorum.weight cfg.roster cfg.power (slot.signers v)) ∧
        (cfg.threshold ≤ slot.weightOf v →
          cfg.verifyCertificate (cfg.buildCertificate slot.votes v) = .ok ())) ∧
      ∀ r ∈ e.journal.certs, r.cert ∈ bs.certificates ∨ cfg.verifyCertificate r.cert = .ok () := by
  have recorded := h.recorded signer decoded ⟨by simp, by simp⟩ fun input _ => input.genuine_any cfg
  refine ⟨fun s slot here v vs vd => ?_, fun r hr => recorded.certs _ (mem_map_of_mem hr)⟩
  have kept := recorded.slots s slot here
  have counted := kept.counted v vs vd
  refine ⟨counted, fun small => ?_, kept.verifies vs vd⟩
  rw [counted]
  exact Nat.mod_eq_of_lt (Nat.lt_of_le_of_lt Quorum.weight_le_total small)

theorem soloConfig_signerValid : soloConfig.SignerValid := by
  intro i n v sig own made
  cases own
  cases made
  rfl

/-- The single validator's vote completes a certificate. -/
theorem assembled_certificates_verify_solo :
    soloBeforeCrash.pool.certAt 0 .notarize = none ∧
      (soloBeforeCrash.journal.certs.map CertRecord.cert).length = 1 ∧
      ∀ r ∈ soloBeforeCrash.journal.certs, soloConfig.verifyCertificate r.cert = .ok () := by
  have run : Run soloConfig ⟨0, [], []⟩ (fun _ => True) soloBeforeCrash :=
    .step 0 ((Run.start soloParams 0).soloNotarize _ fun _ _ => trivial) trivial
  refine ⟨by decide +kernel, by decide +kernel, fun r hr => ?_⟩
  rcases (assembled_certificates_verify soloConfig_signerValid (fun _ h => by cases h) run).2 r hr
    with old | valid
  · cases old
  · exact valid

end Gton.Simplex
