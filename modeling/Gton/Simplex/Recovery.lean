import Gton.Simplex.Ballots

/-!
# Recovery from the journal

`Start` rebuilds the voting flags from the journaled votes, replays certificates and then own
votes, and reserves the interrupted leader window.
-/

namespace Gton.Simplex

open List ValidatorVotes

/-! ## Voting flags -/

/-- No candidate is in the pipeline of the slot. -/
structure VoterSlot.Idle (slot : VoterSlot) : Prop where
  pending : slot.pending = none
  notarCert : slot.notarCert = none
  validated : slot.validated = false
  flying : slot.validationInFlight = false
  stored : slot.stored = false

/-- A voter that has only read its journal. -/
structure Idle (m : SlotMap VoterSlot) : Prop where
  horizon : m.firstNonFinalized = 0
  idle : ∀ s, ((m.get? s).getD default).Idle

namespace Idle

variable {m : SlotMap VoterSlot}

theorem empty : Idle SlotMap.empty := ⟨rfl, fun _ => ⟨rfl, rfl, rfl, rfl, rfl⟩⟩

theorem get? (h : Idle m) (s : UInt32) : m.get? s = some ((m.get? s).getD default) := by
  have live : m.firstNonFinalized ≤ s := by rw [h.horizon]; exact UInt32.zero_le
  rw [SlotMap.get?_of_le live, Option.getD_some]

theorem getD_set (h : Idle m) (s t : UInt32) (slot : VoterSlot) :
    ((m.set s slot).get? t).getD default = if t = s then slot else (m.get? t).getD default := by
  split
  next e =>
    subst e
    rw [SlotMap.get?_set_self (by rw [h.horizon]; exact UInt32.zero_le), Option.getD_some]
  next ne =>
    rw [SlotMap.get?_set_ne ne]

theorem set (h : Idle m) {s : UInt32} {slot : VoterSlot} (idle : slot.Idle) :
    Idle (m.set s slot) where
  horizon := h.horizon
  idle t := by
    rw [h.getD_set]
    split
    · exact idle
    · exact h.idle t

theorem bootstrapVote (h : Idle m) (v : Vote) : Idle (Engine.bootstrapVote m v) := by
  obtain ⟨pending, notarCert, validated, flying, stored⟩ := h.idle v.slot
  unfold Engine.bootstrapVote
  rw [h.get? v.slot]
  dsimp only
  split <;> split
  all_goals first
    | exact h
    | exact h.set ⟨pending, notarCert, validated, flying, stored⟩

theorem foldl (h : Idle m) (l : List Vote) : Idle (l.foldl Engine.bootstrapVote m) := by
  induction l generalizing m with
  | nil => exact h
  | cons v l ih => exact ih (h.bootstrapVote v)

end Idle

/-- The flags of a recovering voter are those of the votes read so far. -/
structure Restored (votes : List Vote) (m : SlotMap VoterSlot) : Prop extends Idle m where
  flagged : ∀ b ∈ votes, ((m.get? b.slot).getD default).Flagged b
  votedNotar : ∀ s id, ((m.get? s).getD default).votedNotar = some id →
    ∃ b ∈ votes, b.kind = .notarize ∧ b.slot = s ∧ b.id = id
  votedFinal : ∀ s, ((m.get? s).getD default).votedFinal = true →
    ∃ b ∈ votes, b.kind = .finalize ∧ b.slot = s
  votedSkip : ∀ s, ((m.get? s).getD default).votedSkip = true →
    ∃ b ∈ votes, b.kind = .skip ∧ b.slot = s

theorem Restored.empty : Restored [] SlotMap.empty where
  toIdle := .empty
  flagged := by simp
  votedNotar s id h := by cases h
  votedFinal s h := by cases h
  votedSkip s h := by cases h

namespace Restored

variable {votes : List Vote} {m : SlotMap VoterSlot} {v : Vote}

theorem write (h : Restored votes m) {old slot : VoterSlot}
    (hold : (m.get? v.slot).getD default = old) (flag : slot.Flagged v)
    (keep : ∀ b ∈ votes, b.slot = v.slot → old.Flagged b → slot.Flagged b)
    (notar : ∀ id, slot.votedNotar = some id →
      old.votedNotar = some id ∨ (v.kind = .notarize ∧ v.id = id))
    (final : slot.votedFinal = true → old.votedFinal = true ∨ v.kind = .finalize)
    (skip : slot.votedSkip = true → old.votedSkip = true ∨ v.kind = .skip)
    (idle : slot.Idle) : Restored (votes ++ [v]) (m.set v.slot slot) where
  toIdle := h.set idle
  flagged b hb := by
    rw [h.getD_set]
    rcases mem_append.mp hb with hb | hb
    · split
      next same =>
        exact keep b hb same (hold ▸ same ▸ h.flagged b hb)
      · exact h.flagged b hb
    · rw [mem_singleton.mp hb, if_pos rfl]
      exact flag
  votedNotar t id ht := by
    rw [h.getD_set] at ht
    split at ht
    next same =>
      rcases notar id ht with old | new
      · obtain ⟨b, hb, hk⟩ := h.votedNotar _ id (hold ▸ old)
        exact ⟨b, mem_append_left _ hb, same ▸ hk⟩
      · exact ⟨v, by simp, new.1, same.symm, new.2⟩
    · obtain ⟨b, hb, hk⟩ := h.votedNotar t id ht
      exact ⟨b, mem_append_left _ hb, hk⟩
  votedFinal t ht := by
    rw [h.getD_set] at ht
    split at ht
    next same =>
      rcases final ht with old | new
      · obtain ⟨b, hb, hk⟩ := h.votedFinal _ (hold ▸ old)
        exact ⟨b, mem_append_left _ hb, same ▸ hk⟩
      · exact ⟨v, by simp, new, same.symm⟩
    · obtain ⟨b, hb, hk⟩ := h.votedFinal t ht
      exact ⟨b, mem_append_left _ hb, hk⟩
  votedSkip t ht := by
    rw [h.getD_set] at ht
    split at ht
    next same =>
      rcases skip ht with old | new
      · obtain ⟨b, hb, hk⟩ := h.votedSkip _ (hold ▸ old)
        exact ⟨b, mem_append_left _ hb, same ▸ hk⟩
      · exact ⟨v, by simp, new, same.symm⟩
    · obtain ⟨b, hb, hk⟩ := h.votedSkip t ht
      exact ⟨b, mem_append_left _ hb, hk⟩

/-- The votes read before `v` admit it, so its record is never dropped. -/
theorem bootstrapVote (h : Restored votes m) (follows : ∀ a ∈ votes, Follows a v) :
    Restored (votes ++ [v]) (Engine.bootstrapVote m v) := by
  have notar (id : CandidateID) (hid : ((m.get? v.slot).getD default).votedNotar = some id)
      (hk : v.kind ≠ .skip) : id = v.id := by
    obtain ⟨b, hb, hbk, hbs, rfl⟩ := h.votedNotar _ id hid
    have := follows b hb hbs
    cases hv : v.kind <;> simp_all
  have skip (hk : v.kind = .finalize) : ((m.get? v.slot).getD default).votedSkip = false := by
    by_contra hs
    obtain ⟨b, hb, hbk, hbs⟩ := h.votedSkip _ (by simpa using hs)
    have := follows b hb hbs
    simp [hbk, hk] at this
  have final (hk : v.kind = .skip) : ((m.get? v.slot).getD default).votedFinal = false := by
    by_contra hs
    obtain ⟨b, hb, hbk, hbs⟩ := h.votedFinal _ (by simpa using hs)
    have := follows b hb hbs
    simp [hbk, hk] at this
  have idle := h.idle v.slot
  unfold Engine.bootstrapVote
  rw [h.get? v.slot]
  generalize hslot : (m.get? v.slot).getD default = slot at notar skip final idle ⊢
  have idle' (n : Option CandidateID) (f b : Bool) :
      { slot with votedNotar := n, votedFinal := f, votedSkip := b }.Idle :=
    ⟨idle.pending, idle.notarCert, idle.validated, idle.flying, idle.stored⟩
  have kept (new : VoterSlot) (hn : ∀ id, slot.votedNotar = some id → new.votedNotar = some id)
      (hf : slot.votedFinal = true → new.votedFinal = true)
      (hs : slot.votedSkip = true → new.votedSkip = true) (b : Vote) (hb : slot.Flagged b) :
      new.Flagged b := by
    unfold VoterSlot.Flagged at hb ⊢
    cases hk : b.kind <;> simp only [hk] at hb ⊢
    · exact hn _ hb
    · exact hf hb
    · exact hs hb
  cases hv : v.kind with
  | notarize =>
    dsimp only
    have voted (id : CandidateID) (hid : slot.votedNotar = some id) : id = v.id :=
      notar id hid (by simp [hv])
    rw [if_neg]
    · refine h.write hslot (by simp [VoterSlot.Flagged, hv]) (fun b _ _ => ?_)
        (fun id hid => .inr ⟨hv, Option.some.inj hid⟩) .inl .inl (idle' _ _ _)
      exact kept { slot with votedNotar := some v.id } (fun id hid => by rw [voted id hid])
        (fun h => h) (fun h => h) b
    · rintro ⟨h1, h2⟩
      cases hn : slot.votedNotar with
      | none => exact h1 hn
      | some id => exact h2 (by rw [hn, voted id hn])
  | finalize =>
    dsimp only
    rw [if_neg]
    · refine h.write hslot (by simp [VoterSlot.Flagged, hv]) (fun b _ _ => ?_) (fun _ => .inl)
        (fun _ => .inr hv) .inl (idle' _ _ _)
      exact kept { slot with votedFinal := true } (fun _ h => h) (fun _ => rfl) (fun h => h) b
    · rintro (h1 | ⟨h1, h2⟩)
      · rw [skip hv] at h1
        cases h1
      · cases hn : slot.votedNotar with
        | none => exact h1 hn
        | some id => exact h2 (by rw [hn, notar id hn (by simp [hv])])
  | skip =>
    dsimp only
    rw [if_neg (by simp [final hv])]
    refine h.write hslot (by simp [VoterSlot.Flagged, hv]) (fun b _ _ => ?_) (fun _ => .inl) .inl
      (fun _ => .inr hv) (idle' _ _ _)
    exact kept { slot with votedSkip := true } (fun _ h => h) (fun h => h) (fun _ => rfl) b

theorem foldl (h : Restored votes m) (l : List Vote) (ordered : (votes ++ l).Pairwise Follows) :
    Restored (votes ++ l) (l.foldl Engine.bootstrapVote m) := by
  induction l generalizing votes m with
  | nil => simpa using h
  | cons v l ih =>
    have split := pairwise_append.mp ordered
    have next := h.bootstrapVote fun a ha => split.2.2 a ha v mem_cons_self
    have := ih next (by simpa using ordered)
    simpa using this

end Restored

variable {cfg : Config} {ctx : Ctx} {bs : BootstrapState} {e : Engine} {b : Vote}
  {rest votes : List Vote} {v w : View} {m : SlotMap VoterSlot} {window : List UInt32} {i : Nat}

/-- A reserved window: every slot of it is voted final or skipped. -/
structure Reserved (votes : List Vote) (window : List UInt32) (m : SlotMap VoterSlot) : Prop
    extends Idle m where
  flagged : ∀ b ∈ votes, ((m.get? b.slot).getD default).Flagged b
  covered : ∀ i ∈ window, ((m.get? i).getD default).votedFinal = true ∨
    ((m.get? i).getD default).votedSkip = true

theorem Restored.reserved (h : Restored votes m) : Reserved votes [] m :=
  ⟨h.toIdle, h.flagged, by simp⟩

theorem Reserved.reserveSkip (h : Reserved votes window m) (i : UInt32) :
    Reserved votes (window ++ [i]) (Engine.reserveSkip m i) := by
  unfold Engine.reserveSkip
  rw [h.get? i]
  dsimp only
  split
  next final =>
    refine ⟨h.toIdle, h.flagged, fun j hj => ?_⟩
    rcases mem_append.mp hj with hj | hj
    · exact h.covered j hj
    · rw [mem_singleton.mp hj]
      exact .inl final
  · have idle := h.idle i
    generalize hold : (m.get? i).getD default = old at idle
    refine ⟨h.set ⟨idle.pending, idle.notarCert, idle.validated, idle.flying, idle.stored⟩,
      fun b hb => ?_, fun j hj => ?_⟩
    · rw [h.getD_set]
      have flagged := h.flagged b hb
      split
      · unfold VoterSlot.Flagged at flagged ⊢
        cases hk : b.kind <;> simp_all
      · exact flagged
    · rw [h.getD_set]
      split
      · exact .inr rfl
      next ne =>
        refine h.covered j ((mem_append.mp hj).resolve_right ?_)
        simpa using ne

theorem Reserved.foldl (h : Reserved votes window m) (l : List UInt32) :
    Reserved votes (window ++ l) (l.foldl Engine.reserveSkip m) := by
  induction l generalizing window m with
  | nil => simpa using h
  | cons i l ih =>
    have := ih (h.reserveSkip i)
    simpa using this

/-- The voter a validator starts with: all flags of the journal, the last window reserved. -/
theorem bootstrapVoter_reserved (votes : List Vote) (window : List UInt32)
    (ordered : votes.Pairwise Follows) :
    Reserved votes window
      (window.foldl Engine.reserveSkip (votes.foldl Engine.bootstrapVote SlotMap.empty)) := by
  have restored := Restored.empty.foldl votes (by simpa using ordered)
  simpa using restored.reserved.foldl window

/-! ## The recovered view -/

/-- The voting state `bootstrapVoter` builds. -/
def BootstrapState.voter (cfg : Config) (bs : BootstrapState) : SlotMap VoterSlot :=
  if cfg.hasVoter then
    (Engine.lastWindowSlots cfg bs.firstNonAnnouncedWindow).foldl Engine.reserveSkip
      (bs.ourVotes.foldl Engine.bootstrapVote SlotMap.empty)
  else SlotMap.empty

theorem BootstrapState.voter_covered (voter : cfg.hasVoter = true) :
    Reserved [] (Engine.lastWindowSlots cfg bs.firstNonAnnouncedWindow) (bs.voter cfg) := by
  have restored : Reserved [] [] (bs.ourVotes.foldl Engine.bootstrapVote SlotMap.empty) :=
    ⟨Idle.empty.foldl _, by simp, by simp⟩
  unfold BootstrapState.voter
  rw [if_pos voter]
  exact restored.foldl _

theorem BootstrapState.voter_idle : Idle (bs.voter cfg) := by
  by_cases voter : cfg.hasVoter = true
  · exact (voter_covered voter).toIdle
  · unfold BootstrapState.voter
    rw [if_neg voter]
    exact .empty

/-- An engine that has read its journal and replayed nothing yet. -/
def View.recovered (cfg : Config) (bs : BootstrapState) (trace : List Event) : View :=
  { failed := false, conflicted := false, started := false
    firstNonAnnouncedWindow := bs.firstNonAnnouncedWindow
    horizon := 0, votes := fun _ _ => {}, certs := fun _ _ => none, saving := fun _ _ => false
    weight := fun _ _ => 0, lastFinalized := genesis, skipRuns := [], waits := [], drain := []
    voterHorizon := (bs.voter cfg).firstNonFinalized
    voter := fun s => ((bs.voter cfg).get? s).getD default
    queue := [], inbox := []
    voteLog := bs.ourVotes.map fun v => ⟨v, true⟩
    certLog := bs.certificates.map fun c => ⟨c, true⟩
    voteSaves := [], certSaves := [], trace }

/-- One own vote is durable. -/
def Ctx.acks (b : Vote) : Ctx := { Ctx.nothing with acked := fun c => c = b }

/-- A journal is replayed and the session opened. -/
def Ctx.starts (bs : BootstrapState) : Ctx :=
  { Ctx.nothing with
    acked := fun v => v ∈ bs.ourVotes, replayed := fun c => c ∈ bs.certificates, opening := True }

/-- Journaled certificates are replayed. -/
def Ctx.replays (certs : List Certificate) : Ctx :=
  { Ctx.nothing with replayed := fun c => c ∈ certs }

namespace Engine

theorem view_prepare (params : Params) (clock : Time) (bs : BootstrapState) (trace : List Event) :
    ((new params clock bs trace).prepare cfg bs.ourVotes).view = View.recovered cfg bs trace := by
  obtain ⟨certs, saving, weight⟩ := fields_default
  have field {β : Type} (f : PoolSlot → β) :
      (fun s => f ((new params clock bs trace).pool.slotAt s)) = fun _ => f default := by
    funext s
    simp [Pool.slotAt, new, SlotMap.empty, SlotMap.get?]
  have h₁ := field PoolSlot.votes
  have h₂ := (field PoolSlot.certByKind).trans (funext fun _ => certs)
  have h₃ := (field PoolSlot.savingByKind).trans (funext fun _ => saving)
  have h₄ := (field PoolSlot.weightOf).trans (funext fun _ => weight)
  unfold prepare
  rw [view_addAvailableBase]
  unfold View.recovered BootstrapState.voter
  split
  · rw [View.mk.injEq]
    exact ⟨rfl, rfl, rfl, rfl, rfl, h₁, h₂, h₃, h₄, rfl, rfl, rfl, rfl, rfl, rfl, rfl,
      rfl, rfl, rfl,
      rfl, rfl, rfl⟩
  · rw [View.mk.injEq]
    exact ⟨rfl, rfl, rfl, rfl, rfl, h₁, h₂, h₃, h₄, rfl, rfl, rfl, rfl, rfl, rfl, rfl,
      rfl, rfl, rfl,
      rfl, rfl, rfl⟩

theorem replayCertificates_refines (certs : List Certificate) (e : Engine)
    (replayed : ∀ c ∈ certs, ctx.replayed c) :
    Refines cfg ctx e (e.replayCertificates cfg certs).1 := by
  induction certs generalizing e with
  | nil => exact .refl
  | cons cert rest ih =>
    have later := fun e => ih e fun c hc => replayed c (mem_cons_of_mem _ hc)
    unfold replayCertificates
    split
    · exact later e
    next slot h =>
      split
      · dsimp only
        have stored : Refines cfg ctx e (e.storeSavedCertificate cfg slot cert) :=
          storeSavedCertificate_refines (.inr (replayed cert mem_cons_self)) h
        split
        · exact stored
        · exact stored.trans (later _)
      · exact .refl

end Engine

/-! ## Ballots across a crash -/

/-- What a journal keeps of the own votes: any of them may survive a crash, in save order, and
those whose save was acknowledged do. -/
structure VotesKept (log : List VoteRecord) (bs : BootstrapState) : Prop where
  ordered : bs.ourVotes.Sublist (log.map VoteRecord.vote)
  durable : ∀ b, ⟨b, true⟩ ∈ log → b ∈ bs.ourVotes

theorem BootstrapState.voter_reserved (ordered : bs.ourVotes.Pairwise Follows)
    (voter : cfg.hasVoter = true) :
    Reserved bs.ourVotes (Engine.lastWindowSlots cfg bs.firstNonAnnouncedWindow)
      (bs.voter cfg) := by
  unfold BootstrapState.voter
  rw [if_pos voter]
  exact bootstrapVoter_reserved _ _ ordered

/-- The recovered flags and the history still fit; all journaled votes wait for their replay. -/
theorem Ballots.recovered (h : Ballots cfg rest v) (kept : VotesKept v.voteLog bs) :
    Ballots cfg bs.ourVotes (View.recovered cfg bs v.trace) := by
  have log : (View.recovered cfg bs v.trace).log = bs.ourVotes := by
    rw [View.log, View.recovered, map_map]
    exact map_id _
  have old {b : Vote} (hb : b ∈ bs.ourVotes) : b ∈ v.log := kept.ordered.subset hb
  have ordered : bs.ourVotes.Pairwise Follows := h.follows.sublist kept.ordered
  have durable {b : Vote} (hb : ⟨b, true⟩ ∈ v.voteLog) :
      ⟨b, true⟩ ∈ (View.recovered cfg bs v.trace).voteLog :=
    mem_map.mpr ⟨b, kept.durable b hb, rfl⟩
  exact
    { voting := fun b hb => h.voting b (old (log ▸ hb))
      follows := log ▸ ordered
      saves := by simp [View.recovered]
      signed := fun b hb => durable (h.signed b hb)
      applied := h.applied
      clean := fun a b hb ha => h.clean a b hb (old (log ▸ ha))
      flags := fun b hb _ => by
        rw [log] at hb
        exact (BootstrapState.voter_reserved ordered (h.voting b (old hb))).flagged b hb
      horizons := by
        change (bs.voter cfg).firstNonFinalized ≤ 0
        rw [BootstrapState.voter_idle.horizon]
        exact UInt32.le_refl 0
      pruning := by simp [View.recovered]
      own := fun i s k p _ hp => by
        rw [show (View.recovered cfg bs v.trace).votes s i = {} from rfl,
          byKind_empty] at hp
        cases hp
      guarded := fun _ i b _ hb _ _ => .inr (.inr (log ▸ hb))
      echo := by simp [View.recovered]
      sent := h.sent
      drained := by simp [View.recovered] }

/-- All own records are direct: no certificate was taken apart yet. -/
def Direct (cfg : Config) (v : View) : Prop :=
  ∀ i s k p, cfg.localIndex = some i → (v.votes s i).byKind k = some p → p.cert = none

theorem Direct.move (h : Direct cfg v) (none_answered : ∀ c, ¬ ctx.answered c)
    (m : Move cfg ctx v w) : Direct cfg w := by
  intro i s k p hi hp
  rcases m.records hp with hp | ⟨-, -, ⟨direct, -⟩ | ⟨cert, answered, -⟩⟩
  · exact h i s k p hi hp
  · exact direct
  · exact (none_answered cert answered).elim

theorem Direct.moves (h : Direct cfg v) (none_answered : ∀ c, ¬ ctx.answered c)
    (m : Moves cfg ctx v w) : Direct cfg w := by
  induction m with
  | refl => exact h
  | tail _ m ih => exact ih.move none_answered m

/-! ## Own-vote replay -/

theorem Ballots.finalize_recorded (h : Ballots cfg rest v) (direct : Direct cfg v)
    {sig : Signature} (own : cfg.localIndex = some i) (hb : b ∈ v.log) (kind : b.kind = .finalize) :
    ∃ p, ((v.votes b.slot i).add ⟨b, sig, none⟩).1.finalize = some p ∧ p.vote = b := by
  have recorded {k : VoteKind} {p : Proven} (hp : (v.votes b.slot i).byKind k = some p) :
      .applied p.vote ∈ v.trace ∧ p.vote ∈ v.log ∧ p.vote.kind = k ∧ p.vote.slot = b.slot := by
    obtain ⟨applied, hk, hs⟩ := h.own i _ k p own hp (direct i _ k p own hp)
    exact ⟨applied, mem_log_of_durable (h.applied_durable applied), hk, hs⟩
  cases hf : (v.votes b.slot i).byKind .finalize with
  | some p =>
    obtain ⟨-, mem, hk, hs⟩ := recorded hf
    exact ⟨p, byKind_add (k := .finalize) hf, h.finalize_unique mem hb hs hk kind⟩
  | none =>
    have consistent : ((v.votes b.slot i).setKind .finalize
        (some ⟨b, sig, none⟩)).checkInvariants = none := by
      refine ValidatorVotes.checkInvariants_eq_none.mpr fun f hf' => ⟨fun n hn => ?_, ?_⟩
      · cases Option.some.inj hf'
        obtain ⟨applied, -, hk, hs⟩ := recorded (k := .notarize) hn
        exact (h.clean b n.vote applied hb hs.symm kind hk).symm
      · cases hsk : (v.votes b.slot i).byKind .skip with
        | none => exact hsk
        | some p =>
          obtain ⟨-, mem, hk, hs⟩ := recorded hsk
          exact (h.finalize_not_skip hb mem hs.symm kind hk).elim
    refine ⟨⟨b, sig, none⟩, ?_, rfl⟩
    unfold ValidatorVotes.add
    simp only [kind, hf, consistent]
    rfl

namespace Engine

theorem fatal_votes (e : Engine) (err : FatalError) : (e.fatal err).view.votes = e.view.votes := by
  unfold fatal
  split <;> rfl

theorem handleCertificate_votes (e : Engine) (cert : Certificate) :
    (e.handleCertificate cert).view.votes = e.view.votes := by
  apply handleCertificate_keep (P := fun e' => e'.view.votes = e.view.votes) rfl
  intro slot here _
  have saved := congrArg View.votes (view_saveCert here)
  exact saved

theorem applyVote_votes {sig : Signature} {tolerate : Bool}
    (live : e.pool.slots.firstNonFinalized ≤ b.slot) :
    (e.applyVote cfg i b sig tolerate).1.view.votes b.slot i =
      ((e.view.votes b.slot i).add ⟨b, sig, none⟩).1 := by
  have found := SlotMap.get?_of_le live
  generalize (e.pool.slots.slots b.slot).getD default = slot at found
  have old : e.view.votes b.slot i = slot.votes i := by simp [view, Pool.slotAt_of_get? found]
  rw [old]
  unfold applyVote
  rw [found]
  dsimp only
  split
  next ev conflict =>
    rw [add_unapplied (add_conflict (by rw [conflict]; rfl)), ← old]
    split
    · rw [(fatal_votes e _)]
    · rfl
  · split
    · unfold onVoteApplied
      dsimp only
      have entered (e' : Engine) (he : e'.pool = e.pool) (w : UInt64) (vv : ValidatorVotes) :
          (e'.setSlot b.slot ({ slot with votes := Function.update slot.votes i vv }.addWeight b
            w)).view.votes b.slot i = vv := by
        rw [view_applied (by rw [he]; exact found)]
        exact (View.votes_setVotes ..).trans (if_pos ⟨rfl, rfl⟩)
      have same : (if cfg.localIndex = some i then e.emit (.applied b) else e).pool = e.pool := by
        split <;> rfl
      split
      · rw [handleCertificate_votes]
        exact entered _ same _ _
      · exact entered _ same _ _
    next unapplied =>
      rw [add_unapplied (by simpa using unapplied), old]

theorem replayVote_recorded (h : Ballots cfg rest e.view) (direct : Direct cfg e.view)
    (own : cfg.localIndex = some i) (hb : b ∈ e.view.log) (kind : b.kind = .finalize)
    (ok : (e.replayVote cfg b).view.failed = false)
    (live : (e.replayVote cfg b).view.horizon ≤ b.slot) :
    ∃ p, ((e.replayVote cfg b).view.votes b.slot i).finalize = some p ∧ p.vote = b := by
  have grown : Grows e.view (e.replayVote cfg b).view :=
    by
    have refines : Refines cfg (Ctx.acks b) e (e.replayVote cfg b) := replayVote_refines rfl
    exact Moves.grows refines
  have before : e.pool.slots.firstNonFinalized ≤ b.slot := UInt32.le_trans grown.horizon live
  have alive : e.failed = false := by
    by_contra dead
    rw [grown.failed (Bool.eq_true_of_not_eq_false dead)] at ok
    cases ok
  unfold replayVote at ok ⊢
  rw [if_neg (UInt32.not_lt.mpr before)] at ok ⊢
  unfold castVote at ok ⊢
  rw [if_neg (by simp [alive, Config.hasVoter, own]), if_pos rfl] at ok ⊢
  unfold finishVoteCast at ok ⊢
  rw [own] at ok ⊢
  dsimp only at ok ⊢
  split at ok
  · rw [show (fatal _ _).view.failed = (fatal _ _).failed from rfl, failed_fatal] at ok
    cases ok
  · rw [if_neg (by simp), applyVote_votes (by exact before)]
    exact Ballots.finalize_recorded h direct own hb kind

end Engine

theorem Ballots.replayed (h : Ballots cfg (b :: rest) v)
    (recorded : ∀ i, cfg.localIndex = some i → v.failed = false → b.kind = .finalize →
      v.horizon ≤ b.slot → ∃ p, (v.votes b.slot i).finalize = some p ∧ p.vote = b) :
    Ballots cfg rest v :=
  { h with
    guarded := fun ok i a hi ha hk live => by
      rcases h.guarded ok i a hi ha hk live with old | old | old
      · exact .inl old
      · exact .inr (.inl old)
      · rcases mem_cons.mp old with rfl | old
        · exact .inr (.inl (recorded i hi ok hk live))
        · exact .inr (.inr old) }

namespace Engine

theorem replayVote_granted (ordered : (b :: rest).Pairwise Follows)
    (durable : ⟨b, true⟩ ∈ v.voteLog) (silent : v.inbox = []) :
    Ballots.Granted cfg (Ctx.acks b) (b :: rest) v where
  acked c hc := hc ▸ durable
  arrived _ hp := hp.elim
  ordered c hc a ha same hka hkc := by
    cases hc
    rcases mem_cons.mp ha with rfl | ha
    · rfl
    · have := (pairwise_cons.mp ordered).1 a ha same.symm
      simp only [hkc, hka] at this
      exact this.symm
  silent _ := ⟨fun _ hp => hp, silent⟩

theorem replayVote_ballots (h : Ballots cfg (b :: rest) e.view) (direct : Direct cfg e.view)
    (ordered : (b :: rest).Pairwise Follows) (durable : ⟨b, true⟩ ∈ e.view.voteLog)
    (silent : e.view.inbox = []) :
    Ballots cfg rest (e.replayVote cfg b).view ∧ Direct cfg (e.replayVote cfg b).view ∧
      (e.replayVote cfg b).view.inbox = [] ∧ Grows e.view (e.replayVote cfg b).view := by
  have refines : Refines cfg (Ctx.acks b) e (e.replayVote cfg b) := replayVote_refines rfl
  obtain ⟨ballots, after⟩ := h.moves (replayVote_granted ordered durable silent) refines
  refine ⟨ballots.replayed fun i own ok kind live => ?_,
    direct.moves (fun _ hc => hc) refines, (after.silent (by simp)).2, Moves.grows refines⟩
  exact replayVote_recorded h direct own (Ballots.mem_log_of_durable durable) kind ok live

theorem replayVotes_ballots (votes : List Vote) (h : Ballots cfg votes e.view)
    (direct : Direct cfg e.view) (ordered : votes.Pairwise Follows)
    (durable : ∀ b ∈ votes, ⟨b, true⟩ ∈ e.view.voteLog) (silent : votes ≠ [] → e.view.inbox = []) :
    Ballots cfg [] (votes.foldl (replayVote cfg) e).view ∧
      Grows e.view (votes.foldl (replayVote cfg) e).view := by
  induction votes generalizing e with
  | nil => exact ⟨h, .refl _⟩
  | cons b rest ih =>
    obtain ⟨ballots, direct', silent', grown⟩ :=
      replayVote_ballots h direct ordered (durable b mem_cons_self) (silent (by simp))
    have later := ih ballots direct' (pairwise_cons.mp ordered).2
      (fun c hc => grown.voteLog.subset (durable c (mem_cons_of_mem _ hc))) fun _ => silent'
    exact ⟨later.1, grown.trans later.2⟩

end Engine

/-! ## Startup -/

/-- Until the session starts, the last announced window stays reserved. -/
def Covered (cfg : Config) (v : View) : Prop :=
  v.started = false → ∀ i ∈ Engine.lastWindowSlots cfg v.firstNonAnnouncedWindow,
    v.voterHorizon ≤ i → (v.voter i).votedFinal = true ∨ (v.voter i).votedSkip = true

theorem Covered.grows (h : Covered cfg v) (g : Grows v w) : Covered cfg w := by
  intro waiting i hi live
  have before : v.started = false := by
    by_contra hs
    rw [g.started (Bool.eq_true_of_not_eq_false hs)] at waiting
    cases waiting
  rw [g.window waiting] at hi
  exact (h before i hi (UInt32.le_trans g.voterHorizon live)).imp
    (fun hf => g.flags i (finalizeVote ⟨i, 0⟩) live hf) (fun hs => g.flags i (skipVote i) live hs)

theorem Covered.recovered {trace : List Event} (voter : cfg.hasVoter = true) :
    Covered cfg (View.recovered cfg bs trace) :=
  fun _ i hi _ => (BootstrapState.voter_covered voter).covered i hi

namespace Engine

theorem startupSkip_refines {i : UInt32}
    (covered : e.view.voterHorizon ≤ i → (e.view.voter i).votedFinal = true ∨
      (e.view.voter i).votedSkip = true) :
    Refines cfg ctx e (startupSkip cfg e i) := by
  unfold startupSkip
  split
  · exact .refl
  next slot h =>
    have live := SlotMap.le_of_get? h
    have here := view_voter h
    split
    · exact .refl
    next notFinal =>
      have reserved := (covered live).resolve_left (by rw [here]; exact notFinal)
      rw [here] at reserved
      have cast : Refines cfg ctx e ((e.setVoterSlot i slot).castVote cfg (skipVote i) false) := by
        refine cast_refines h ?_
        convert CastRule.skip (s := i) (by simpa using notFinal)
      have same : (e.setVoterSlot i slot).view = e.view := by
        rw [view_setVoterSlot live, View.setVoter, ← here, Function.update_eq_self]
      unfold Refines at cast ⊢
      by_cases mute : e.failed = true ∨ cfg.hasVoter = false
      · rw [castVote_mute mute]
      · simp only [not_or, Bool.not_eq_true, Bool.not_eq_false] at mute
        rw [view_castVote (by exact mute.1) mute.2] at cast ⊢
        rw [same] at cast
        exact cast

theorem castStartupWindowSkips_refines (covered : Covered cfg e.view)
    (waiting : e.started = false) : Refines cfg ctx e (e.castStartupWindowSkips cfg) := by
  have loop (l : List UInt32) (e : Engine) (covered : ∀ i ∈ l, e.view.voterHorizon ≤ i →
      (e.view.voter i).votedFinal = true ∨ (e.view.voter i).votedSkip = true) :
      Refines cfg ctx e (l.foldl (startupSkip cfg) e) := by
    induction l generalizing e with
    | nil => exact .refl
    | cons i l ih =>
      have first : Refines cfg ctx e (startupSkip cfg e i) :=
        startupSkip_refines (covered i mem_cons_self)
      have g := Moves.grows first
      refine first.trans (ih _ fun j hj live => ?_)
      exact (covered j (mem_cons_of_mem _ hj) (UInt32.le_trans g.voterHorizon live)).imp
        (fun hf => g.flags j (finalizeVote ⟨j, 0⟩) live hf)
        (fun hs => g.flags j (skipVote j) live hs)
  exact loop _ e (covered waiting)

theorem openSession_refines (opening : ctx.opening)
    (covered : cfg.hasVoter = true → Covered cfg e.view) (waiting : e.started = false) :
    Refines cfg ctx e (e.openSession cfg) := by
  have skips : Refines cfg ctx e (if cfg.hasVoter then e.castStartupWindowSkips cfg else e) := by
    split
    next voter =>
      exact castStartupWindowSkips_refines (covered voter) waiting
    · exact .refl
  unfold openSession
  generalize (if cfg.hasVoter then e.castStartupWindowSkips cfg else e) = e₁ at skips ⊢
  have started (at_ : Option Time) :
      Refines cfg ctx e₁ { e₁ with started := true, standstillAt := at_ } := .move (.begin opening)
  exact skips.trans ((started _).trans
    (.trans (.quiet (advancePresent_quiet _)) (drainPending_refines _)))

theorem start_cases (params : Params) (clock : Time) (bs : BootstrapState) (trace : List Event) :
    (start cfg params clock bs trace).1 = new params clock bs trace ∨
      (cfg.validateBootstrap bs.certificates = .ok () ∧
        ∃ e, e = (((new params clock bs trace).prepare cfg bs.ourVotes).replayCertificates cfg
            bs.certificates).1 ∧
          ((start cfg params clock bs trace).1 = e ∨
            ((((new params clock bs trace).prepare cfg bs.ourVotes).replayCertificates cfg
                bs.certificates).2 = none ∧
              (start cfg params clock bs trace).1 = e.startSession cfg bs.ourVotes))) := by
  unfold start
  dsimp only
  split
  · exact .inl rfl
  next valid =>
    refine .inr ⟨valid, _, rfl, ?_⟩
    split
    next e err h =>
      exact .inl (by rw [h])
    next e h =>
      exact .inr (by rw [h]; exact ⟨rfl, rfl⟩)

theorem replayVotes_started (votes : List Vote) (e : Engine) :
    (votes.foldl (replayVote cfg) e).started = e.started := by
  induction votes generalizing e with
  | nil => rfl
  | cons b rest ih =>
    have refines : Refines cfg (Ctx.acks b) e (e.replayVote cfg b) := replayVote_refines rfl
    exact (ih _).trans (Moves.started refines fun h => h)

theorem drainReplay_refines (ctx : Ctx) (e : Engine) : Refines cfg ctx e
    ({ e with suppressCertBroadcast := false }.drainPending cfg) := by
  have loud : Refines cfg ctx e { e with suppressCertBroadcast := false } :=
    .quiet (.refl _)
  exact loud.trans (drainPending_refines _)

theorem startSession_refines (opening : ctx.opening) (acked : ∀ v ∈ votes, ctx.acked v)
    (covered : cfg.hasVoter = true → Covered cfg e.view) (waiting : e.started = false) :
    Refines cfg ctx e (e.startSession cfg votes) := by
  have drained (ctx : Ctx) := @drainReplay_refines cfg ctx e
  unfold startSession
  generalize Engine.drainPending cfg _ = e₁ at drained ⊢
  have replayed : Refines cfg ctx e₁ (votes.foldl (replayVote cfg) e₁) :=
    .foldl _ (fun _ v hv => replayVote_refines (acked v hv)) _
  have started : (votes.foldl (replayVote cfg) e₁).started = false :=
    (replayVotes_started _ _).trans ((Moves.started (drained .nothing) fun h => h).trans waiting)
  refine (drained ctx).trans
    (replayed.trans (openSession_refines opening (fun voter => ?_) started))
  exact (covered voter).grows (Moves.grows ((drained ctx).trans replayed))

/-- `Start` makes moves from the recovered view, unless it refuses the journal. -/
theorem start_refines (params : Params) (clock : Time) (bs : BootstrapState)
    (trace : List Event) :
    (start cfg params clock bs trace).1 = new params clock bs trace ∨
      (cfg.validateBootstrap bs.certificates = .ok () ∧
        Moves cfg (Ctx.starts bs) (View.recovered cfg bs trace)
          (start cfg params clock bs trace).1.view) := by
  rcases start_cases params clock bs trace with refused | ⟨valid, e, he, hstart⟩
  · exact .inl refused
  · have replayed (ctx : Ctx) (granted : ∀ c ∈ bs.certificates, ctx.replayed c) :
        Moves cfg ctx (View.recovered cfg bs trace) e.view := by
      rw [he, ← view_prepare params clock bs trace]
      exact replayCertificates_refines _ _ granted
    have here := replayed (Ctx.starts bs) fun _ h => h
    have waiting : e.started = false :=
      Moves.started (replayed (Ctx.replays bs.certificates) fun _ h => h) fun h => h
    rcases hstart with stuck | ⟨-, opened⟩
    · rw [stuck]
      exact .inr ⟨valid, here⟩
    · rw [opened]
      refine .inr ⟨valid,
        here.trans (startSession_refines trivial (fun _ h => h) (fun voter => ?_) waiting)⟩
      exact (Covered.recovered voter).grows here.grows

end Engine

end Gton.Simplex
