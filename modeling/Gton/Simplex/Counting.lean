import Gton.Lib.Quorum
import Gton.Simplex.Ballots

/-!
# Counted votes

Certificates rest on votes that were really made. `made i b` says that validator `i` made the
vote `b`: any vote of a faulty validator, an entered vote of an honest one. Weights are counted
in `uint64`; a wrapped sum is never above the exact one.
-/

namespace Gton.Simplex

open List

variable {made made' : Nat → Vote → Prop} {b : Vote} {i : Nat}

namespace Config

variable (cfg : Config) {A : Set Nat}

def roster : Finset Nat := Finset.range cfg.validators.length

/-- A validator's weight as a number. -/
def power (i : Nat) : Nat := (cfg.weight i).toNat

/-- Votes of a quorum were made for `b`. -/
def Backed (made : Nat → Vote → Prop) (b : Vote) : Prop :=
  cfg.threshold.toNat ≤ Quorum.weight cfg.roster cfg.power {i | made i b.decoded}

theorem Backed.mono {cfg : Config}
    (h : cfg.Backed made b) (sub : ∀ i, made i b.decoded → made' i b.decoded) :
    cfg.Backed made' b :=
  Nat.le_trans h (Quorum.weight_mono fun i _ hi => sub i hi)

theorem power_of_not_mem (h : i ∉ cfg.roster) : cfg.power i = 0 := by
  have absent : cfg.validators[i]? = none := by
    simpa [roster] using h
  simp [power, weight, absent]

theorem weight_insert_le {B : Set Nat} (fresh : i ∉ A) (here : i ∈ B) (sub : A ⊆ B) :
    Quorum.weight cfg.roster cfg.power A + cfg.power i ≤ Quorum.weight cfg.roster cfg.power B := by
  by_cases mem : i ∈ cfg.roster
  · rw [← Quorum.weight_insert mem fresh]
    exact Quorum.weight_mono fun j _ hj => by
      rcases hj with rfl | hj
      · exact here
      · exact sub hj
  · rw [cfg.power_of_not_mem mem, Nat.add_zero]
    exact Quorum.weight_mono fun j _ hj => sub hj

theorem certificateWeight_le {voted : List Nat} {acc w : UInt64} {sigs : List VoteSignature}
    (h : certificateWeight cfg.validators voted acc sigs = .ok w)
    (old : acc.toNat ≤ Quorum.weight cfg.roster cfg.power {i | i ∈ voted})
    (sub : ∀ i ∈ voted, i ∈ A) (new : ∀ s ∈ sigs, s.validatorIndex ∈ A) :
    w.toNat ≤ Quorum.weight cfg.roster cfg.power A := by
  induction sigs generalizing voted acc with
  | nil =>
    cases h
    exact Nat.le_trans old (Quorum.weight_mono fun i _ hi => sub i hi)
  | cons s rest ih =>
    unfold certificateWeight at h
    dsimp only at h
    split at h
    · cases h
    next validator found =>
      split at h
      · cases h
      next fresh =>
        have power : cfg.power s.validatorIndex = validator.weight.toNat := by
          simp [Config.power, Config.weight, found]
        refine ih h ?_ (fun i hi => ?_) fun t ht => new t (mem_cons_of_mem _ ht)
        · have grown := cfg.weight_insert_le (A := {i | i ∈ voted})
            (B := {i | i ∈ s.validatorIndex :: voted}) fresh mem_cons_self
            fun i hi => mem_cons_of_mem _ hi
          rw [UInt64.toNat_add]
          exact Nat.le_trans (Nat.mod_le _ _) (by omega)
        · rcases mem_cons.mp hi with rfl | hi
          · exact new s mem_cons_self
          · exact sub i hi

theorem backed_of_payload {cert : Certificate} (h : cfg.verifyCertificatePayload cert = .ok ())
    (genuine : ∀ s ∈ cert.signatures, cfg.verifyVote s.validatorIndex cert.vote s.signature = true →
        made s.validatorIndex cert.vote.decoded) : cfg.Backed made cert.vote := by
  obtain ⟨w, counted, enough, valid⟩ := cfg.verifyCertificatePayload_ok h
  refine Nat.le_trans (UInt64.le_iff_toNat_le.mp enough) (cfg.certificateWeight_le counted ?_ ?_ ?_)
  · simp
  · simp
  · exact fun s hs => genuine s hs (valid s hs)

end Config

namespace View

/-- The votes made, seen from one node: those made before, and its own entered ones. -/
def Made (cfg : Config) (made : Nat → Vote → Prop) (v : View) (i : Nat) (b : Vote) : Prop :=
  made i b ∨ (cfg.localIndex = some i ∧ .applied b ∈ v.trace)

/-- The validators whose own signed vote counts for `b` in slot `s`. -/
def voters (v : View) (s : UInt32) (b : Vote) : Set Nat :=
  {i | ∃ p, (v.votes s i).byKind b.kind = some p ∧ p.cert = none ∧ SameCounter b p.vote}

theorem Made.grows {cfg : Config} {v w : View}
    (h : v.Made cfg made i b) (grown : Grows v w) : w.Made cfg made i b :=
  h.imp_right fun own => own.imp_right (grown.trace.subset ·)

end View

/-- What the pool of one node counts was made by the validator it is counted for. -/
structure Counted (cfg : Config) (made : Nat → Vote → Prop) (v : View) : Prop where
  decoded : ∀ b ∈ v.log, b.decoded = b
  inbox : ∀ p ∈ v.inbox, p.vote.decoded = p.vote ∧
    (cfg.verifyVote p.idx p.vote p.sig = true → v.Made cfg made p.idx p.vote)
  direct : ∀ s i k p, (v.votes s i).byKind k = some p → p.cert = none →
    v.Made cfg made i p.vote ∧ p.vote.decoded = p.vote ∧ p.vote.kind = k ∧ p.vote.slot = s
  counted : ∀ s b, (v.weight s b).toNat ≤
    Quorum.weight cfg.roster cfg.power (v.voters s b)
  journaled : ∀ r ∈ v.certLog, cfg.Backed (v.Made cfg made) r.cert.vote
  saves : ∀ save ∈ v.certSaves, save.cert ∈ v.certLog.map CertRecord.cert

/-- What an input brings was made by its signers. -/
structure Counted.Granted (cfg : Config) (made : Nat → Vote → Prop) (ctx : Ctx) : Prop where
  acked : ∀ b, ctx.acked b → b.decoded = b
  arrived : ∀ p, ctx.arrived p → p.vote.decoded = p.vote ∧
    (cfg.verifyVote p.idx p.vote p.sig = true → made p.idx p.vote)
  received : ∀ c, ctx.received c → cfg.verifyCertificate c = .ok () → cfg.Backed made c.vote

namespace Counted

variable {cfg : Config} {made : Nat → Vote → Prop} {ctx : Ctx} {v w : View} {vv : ValidatorVotes}
  {sig : Signature}

theorem decoded_move (h : Counted cfg made v) (m : Move cfg ctx v w) (b : Vote) (hb : b ∈ w.log) :
    b.decoded = b := by
  rcases m.casts with ⟨log, -⟩ | ⟨s, c, slot, rule, -, -, rfl⟩
  · exact h.decoded b (View.log_eq log ▸ hb)
  · rcases View.mem_log_journalVote hb with hb | rfl
    · exact h.decoded b hb
    · cases rule <;> rfl

theorem inbox_move (h : Counted cfg made v) (g : Granted cfg made ctx) (m : Move cfg ctx v w)
    (p : PendingVote) (hp : p ∈ w.inbox) : p.vote.decoded = p.vote ∧
      (cfg.verifyVote p.idx p.vote p.sig = true → w.Made cfg made p.idx p.vote) := by
  have grown := m.grows
  have old (hp : p ∈ v.inbox) : p.vote.decoded = p.vote ∧
      (cfg.verifyVote p.idx p.vote p.sig = true → w.Made cfg made p.idx p.vote) :=
    (h.inbox p hp).imp_right fun made valid => (made valid).grows grown
  cases m with
  | quiet q => exact old (q.inbox hp)
  | buffer arrived =>
    rcases mem_append.mp hp with hp | hp
    · exact old hp
    · rw [mem_singleton.mp hp]
      exact (g.arrived _ arrived).imp_right fun made valid => .inl (made valid)
  | store _ _ _ stored => cases stored <;> exact old hp
  | _ => exact old hp

theorem sourced (h : Counted cfg made v) (g : Granted cfg made ctx)
    (sourced : v.Sourced cfg ctx i b sig) :
    b.decoded = b ∧ (v.enter cfg i b vv).Made cfg made i b := by
  rcases sourced with ⟨own, acked, -⟩ | ⟨⟨src, mem⟩, valid⟩
  · refine ⟨g.acked b acked, .inr ⟨own, ?_⟩⟩
    unfold View.enter
    dsimp only
    rw [if_pos own]
    exact mem_cons_self
  · obtain ⟨decoded, made⟩ := h.inbox _ mem
    refine ⟨decoded, (made valid).imp_right fun own => own.imp_right fun applied => ?_⟩
    unfold View.enter
    split
    · exact mem_cons_of_mem _ applied
    · exact applied

section

variable (h : Counted cfg made v) (g : Granted cfg made ctx) (m : Move cfg ctx v w)
include h g m

theorem direct_move (s : UInt32) (i : Nat) (k : VoteKind) (p : Proven)
    (hp : (w.votes s i).byKind k = some p) (direct : p.cert = none) :
    w.Made cfg made i p.vote ∧ p.vote.decoded = p.vote ∧ p.vote.kind = k ∧ p.vote.slot = s := by
  rcases m.records hp with hp | ⟨kind, slot, ⟨-, sourced, vv, rfl⟩ | ⟨cert, -, taken, -⟩⟩
  · exact (h.direct s i k p hp direct).imp_left (·.grows m.grows)
  · obtain ⟨decoded, made⟩ := h.sourced g sourced
    exact ⟨made, decoded, kind, slot⟩
  · rw [direct] at taken
    cases taken

omit h g m in
theorem voters_subset {s : UInt32} (kept : ∀ i k p, (v.votes s i).byKind k = some p →
    (w.votes s i).byKind k = some p) (b : Vote) : v.voters s b ⊆ w.voters s b :=
  fun i ⟨p, hp, direct, same⟩ => ⟨p, kept i _ p hp, direct, same⟩

omit g m in
theorem counted_enter
    (added : (v.votes b.slot i).add ⟨b, sig, none⟩ = (vv, true, none)) (s : UInt32) (a : Vote) :
    ((v.enter cfg i b vv).weight s a).toNat ≤
      Quorum.weight cfg.roster cfg.power ((v.enter cfg i b vv).voters s a) := by
  obtain ⟨absent, result, -⟩ := ValidatorVotes.add_applied added
  have kept (s : UInt32) (a : Vote) : v.voters s a ⊆ (v.enter cfg i b vv).voters s a := by
    refine voters_subset (fun j k p hp => ?_) a
    rw [View.votes_enter]
    split
    next here =>
      obtain ⟨rfl, rfl⟩ := here
      rw [result, ValidatorVotes.byKind_setKind, if_neg, hp]
      rintro rfl
      cases absent.symm.trans hp
    · exact hp
  have old : (v.weight s a).toNat ≤
      Quorum.weight cfg.roster cfg.power ((v.enter cfg i b vv).voters s a) :=
    Nat.le_trans (h.counted s a) (Quorum.weight_mono fun j _ hj => kept s a hj)
  by_cases hs : s = b.slot
  · subst hs
    by_cases same : View.SameCounter a b
    · have weight : (v.enter cfg i b vv).weight b.slot a = v.weight b.slot a + cfg.weight i := by
        simp [View.enter, View.addWeight, View.setVotes, same]
      have fresh : i ∉ v.voters b.slot a := by
        rintro ⟨p, hp, -⟩
        rw [same.1, absent] at hp
        cases hp
      have here : i ∈ (v.enter cfg i b vv).voters b.slot a := by
        refine ⟨⟨b, sig, none⟩, ?_, rfl, same⟩
        rw [View.votes_enter, if_pos ⟨rfl, rfl⟩, result, ValidatorVotes.byKind_setKind,
          if_pos same.1]
      have grown := cfg.weight_insert_le fresh here (kept b.slot a)
      have counted := h.counted b.slot a
      rw [weight, UInt64.toNat_add]
      exact Nat.le_trans (Nat.mod_le _ _) (Nat.le_trans (Nat.add_le_add_right counted _) grown)
    · have weight : (v.enter cfg i b vv).weight b.slot a = v.weight b.slot a := by
        simp [View.enter, View.addWeight, View.setVotes, same]
      rw [weight]
      exact old
  · have weight : (v.enter cfg i b vv).weight s a = v.weight s a := by
      simp [View.enter, View.addWeight, View.setVotes, hs]
    rw [weight]
    exact old

omit g m in
theorem counted_finalizeCert (cert : Certificate) (s : UInt32) (b : Vote) :
    ((v.finalizeCert cert).weight s b).toNat ≤
      Quorum.weight cfg.roster cfg.power ((v.finalizeCert cert).voters s b) := by
  by_cases pruned : s < View.raise v.horizon cert.vote.slot
  · have weight : (v.finalizeCert cert).weight s b = 0 := by
      simp [View.finalizeCert, View.prunePool, pruned]
    rw [weight]
    exact Nat.zero_le _
  · have weight : (v.finalizeCert cert).weight s b = v.weight s b := by
      simp [View.finalizeCert, View.prunePool, pruned, View.storeCert]
    have voters : (v.finalizeCert cert).voters s b = v.voters s b := by
      unfold View.voters
      rw [View.votes_finalizeCert, if_neg pruned]
    rw [weight, voters]
    exact h.counted s b

omit g in
theorem counted_move (s : UInt32) (b : Vote) :
    (w.weight s b).toNat ≤ Quorum.weight cfg.roster cfg.power (w.voters s b) := by
  cases m with
  | quiet q =>
    rw [q.weight, show w.voters s b = v.voters s b by unfold View.voters; rw [q.votes]]
    exact h.counted s b
  | apply sourced live ok added => exact h.counted_enter added s b
  | extract =>
    refine Nat.le_trans (h.counted s b) (Quorum.weight_mono fun j _ hj => ?_)
    refine voters_subset (fun j k p hp => ?_) b hj
    rw [View.votes_setVotes]
    split
    next here =>
      obtain ⟨rfl, rfl⟩ := here
      exact ValidatorVotes.byKind_add hp
    · exact hp
  | store _ _ _ stored =>
    cases stored with
    | final => exact h.counted_finalizeCert _ s b
    | _ => exact h.counted s b
  | _ => exact h.counted s b

omit g m in
theorem built (enough : cfg.threshold ≤ v.weight b.slot b) : cfg.Backed (v.Made cfg made) b := by
  refine Nat.le_trans (UInt64.le_iff_toNat_le.mp enough)
    (Nat.le_trans (h.counted b.slot b) (Quorum.weight_mono ?_))
  rintro i - ⟨p, hp, direct, kind, same⟩
  obtain ⟨made, decoded, -, slot⟩ := h.direct _ _ _ p hp direct
  suffices voted : b.decoded = p.vote by rw [Set.mem_ofPred_eq, voted]; exact made
  rw [← decoded]
  rcases same with skip | same
  · unfold Vote.decoded
    rw [← kind, skip]
    exact congrArg skipVote slot.symm
  · exact congrArg Vote.decoded (congrArg₂ Vote.mk kind same)

theorem journaled_move (r : CertRecord) (hr : r ∈ w.certLog) :
    cfg.Backed (w.Made cfg made) r.cert.vote := by
  rcases m.saves hr with old | ⟨received, valid⟩ | ⟨enough, -⟩
  · exact (h.journaled r old).mono fun i made => made.grows m.grows
  · exact (g.received _ received valid).mono fun i made => .inl made
  · exact (h.built enough).mono fun i made => made.grows m.grows

omit g in
theorem saves_move (save : CertSave) (hs : save ∈ w.certSaves) :
    save.cert ∈ w.certLog.map CertRecord.cert := by
  have old (hs : save ∈ v.certSaves) : save.cert ∈ w.certLog.map CertRecord.cert :=
    (m.grows.certLog.map _).subset (h.saves save hs)
  cases m with
  | quiet q => exact old (q.certSaves hs)
  | save =>
    rename_i cert _ _ _ _
    rcases mem_append.mp hs with hs | hs
    · exact old hs
    · rw [mem_singleton.mp hs]
      unfold View.journalCert
      dsimp only
      split
      next known =>
        obtain ⟨r, hr, same⟩ := any_eq_true.mp known
        exact mem_map.mpr ⟨r, hr, of_decide_eq_true same⟩
      · simp
  | store _ _ _ stored => cases stored <;> exact old hs
  | _ => exact old hs

theorem move : Counted cfg made w :=
  ⟨h.decoded_move m, h.inbox_move g m, h.direct_move g m, h.counted_move m,
    h.journaled_move g m, h.saves_move m⟩

end

theorem moves (h : Counted cfg made v) (g : Granted cfg made ctx) (m : Moves cfg ctx v w) :
    Counted cfg made w := by
  induction m with
  | refl => exact h
  | tail _ m ih => exact ih.move g m

theorem mono (h : Counted cfg made v)
    (more : ∀ i b, v.Made cfg made i b → v.Made cfg made' i b) : Counted cfg made' v :=
  { h with
    inbox := fun p hp => (h.inbox p hp).imp_right fun made valid => more _ _ (made valid)
    direct := fun s i k p hp direct => (h.direct s i k p hp direct).imp_left (more _ _)
    journaled := fun r hr => (h.journaled r hr).mono fun i => more i _ }

end Counted

end Gton.Simplex
