import Gton.Simplex.Windows

/-!
# Certificate replay does not depend on the order

The journal hands its certificates over in no particular order. What a replay leaves behind is
described by the set alone: the highest finalization sets the horizon, the certificates from
there on are kept, and run ends, bases and the present slot follow from those.
-/

namespace Gton.Simplex

/-- A set of certificates that do not contradict each other, for slots below the last. -/
structure Coherent (certs : List Certificate) : Prop where
  unique : ∀ c ∈ certs, ∀ d ∈ certs, c.vote.slot = d.vote.slot → c.vote.kind = d.vote.kind → c = d
  exclusive : ∀ c ∈ certs, ∀ d ∈ certs, c.vote.kind = .skip → d.vote.kind = .finalize →
    c.vote.slot ≠ d.vote.slot
  agree : ∀ c ∈ certs, ∀ d ∈ certs, c.vote.kind = .notarize → d.vote.kind = .finalize →
    c.vote.slot = d.vote.slot → c.vote.id = d.vote.id
  below : ∀ c ∈ certs, c.vote.slot < lastSlot

/-- The frontier a replay of the certificates in `S` leaves before the session opens. -/
structure Holds (S : Certificate → Prop) (f : Frontier) : Prop where
  certs : ∀ s k c, f.certs s k = some c ↔
    S c ∧ c.vote.slot = s ∧ c.vote.kind = k ∧ f.horizon ≤ s
  final : ∀ c, S c → c.vote.kind = .finalize → c.vote.slot < f.horizon
  last : (f.horizon = 0 ∧ f.last = genesis) ∨ ∃ c, S c ∧ c.vote.kind = .finalize ∧
    f.horizon = c.vote.slot + 1 ∧ f.last = parent c.vote.id
  now : f.now = f.horizon

namespace Holds

variable {S T : Certificate → Prop} {f g : Frontier} {cert : Certificate}

theorem initial : Holds (fun _ => False) Frontier.initial where
  certs s k c := by simp [Frontier.initial]
  final c h := h.elim
  last := .inl ⟨rfl, rfl⟩
  now := rfl

theorem congr (h : Holds S f) (same : ∀ c, T c ↔ S c) : Holds T f where
  certs s k c := by rw [h.certs, same]
  final c hc := h.final c ((same c).mp hc)
  last := h.last.imp id fun ⟨c, hc, rest⟩ => ⟨c, (same c).mpr hc, rest⟩
  now := h.now

theorem pruned (h : Holds S f) (low : cert.vote.slot < f.horizon) :
    Holds (fun c => c = cert ∨ S c) f where
  certs s k c := by
    rw [h.certs]
    constructor
    · rintro ⟨hc, rest⟩
      exact ⟨.inr hc, rest⟩
    · rintro ⟨rfl | hc, slot, kind, live⟩
      · rw [slot] at low
        exact absurd low (UInt32.not_lt.mpr live)
      · exact ⟨hc, slot, kind, live⟩
  final c hc kind := by
    rcases hc with rfl | hc
    · exact low
    · exact h.final c hc kind
  last := h.last.imp id fun ⟨c, hc, rest⟩ => ⟨c, .inr hc, rest⟩
  now := h.now

theorem absorb (h : Holds S f) (live : f.horizon ≤ cert.vote.slot)
    (up : cert.vote.slot < cert.vote.slot + 1)
    (absent : ∀ c, S c → c.vote.slot = cert.vote.slot → c.vote.kind ≠ cert.vote.kind)
    (absorbs : Engine.Absorbs f cert g)
    (now : g.now = if cert.vote.kind = .finalize ∧ f.now ≤ cert.vote.slot then cert.vote.slot + 1
      else f.now) : Holds (fun c => c = cert ∨ S c) g := by
  by_cases kind : cert.vote.kind = .finalize
  · have horizon : g.horizon = cert.vote.slot + 1 := by rw [absorbs.horizon, if_pos kind]
    have certs : g.certs = (f.finalize cert).certs := by rw [absorbs.certs, if_pos kind]
    refine ⟨fun s k c => ?_, fun c hc kind' => ?_, .inr ⟨cert, .inl rfl, kind, horizon, ?_⟩, ?_⟩
    · rw [certs, horizon]
      by_cases above : cert.vote.slot + 1 ≤ s
      · rw [Frontier.finalize_certs above, h.certs]
        constructor
        · rintro ⟨hc, slot, kind', -⟩
          exact ⟨.inr hc, slot, kind', above⟩
        · rintro ⟨rfl | hc, slot, kind', -⟩
          · grind
          · exact ⟨hc, slot, kind', by grind⟩
      · rw [Frontier.finalize_certs_below (UInt32.not_le.mp above)]
        constructor
        · intro absent'
          cases absent'
        · rintro ⟨-, -, -, above'⟩
          exact absurd above' above
    · rw [horizon]
      rcases hc with rfl | hc
      · exact up
      · have := h.final c hc kind'
        grind
    · rw [absorbs.last, if_pos kind]
    · rw [now, horizon, if_pos ⟨kind, h.now ▸ live⟩]
  · have horizon : g.horizon = f.horizon := by rw [absorbs.horizon, if_neg kind]
    have certs : g.certs = (f.put cert).certs := by rw [absorbs.certs, if_neg kind]
    refine ⟨fun s k c => ?_, fun c hc kind' => ?_, ?_, ?_⟩
    · rw [certs, horizon]
      unfold Frontier.put
      dsimp only
      split
      next here =>
        constructor
        · rintro ⟨rfl⟩
          exact ⟨.inl rfl, here.1.symm, here.2.symm, here.1 ▸ live⟩
        · rintro ⟨rfl | hc, slot, kind', -⟩
          · rfl
          · exact absurd (kind'.trans here.2) (absent c hc (slot.trans here.1))
      next elsewhere =>
        rw [h.certs]
        constructor
        · rintro ⟨hc, rest⟩
          exact ⟨.inr hc, rest⟩
        · rintro ⟨rfl | hc, slot, kind', live'⟩
          · exact absurd ⟨slot.symm, kind'.symm⟩ elsewhere
          · exact ⟨hc, slot, kind', live'⟩
    · rw [horizon]
      rcases hc with rfl | hc
      · exact absurd kind' kind
      · exact h.final c hc kind'
    · rw [horizon, absorbs.last, if_neg kind]
      exact h.last.imp id fun ⟨c, hc, rest⟩ => ⟨c, .inr hc, rest⟩
    · rw [now, horizon, if_neg fun h => kind h.1, h.now]

section

variable (hf : Holds S f) (hg : Holds S g) (up : ∀ c, S c → c.vote.slot < c.vote.slot + 1)
include hf hg up

theorem horizon_le : f.horizon ≤ g.horizon := by
  rcases hf.last with ⟨zero, -⟩ | ⟨c, hc, kind, horizon, -⟩
  · rw [zero]
    exact UInt32.zero_le
  · have := hg.final c hc kind
    have := up c hc
    grind

theorem unique
    (single : ∀ c d, S c → S d → c.vote.slot = d.vote.slot → c.vote.kind = d.vote.kind → c = d) :
    g.horizon = f.horizon ∧ g.last = f.last ∧ g.certs = f.certs := by
  have horizon : g.horizon = f.horizon :=
    UInt32.le_antisymm (hg.horizon_le hf up) (hf.horizon_le hg up)
  refine ⟨horizon, ?_, ?_⟩
  · rcases hf.last with ⟨zero, last⟩ | ⟨c, hc, kind, at_, last⟩
    · rcases hg.last with ⟨-, last'⟩ | ⟨d, hd, kind', -⟩
      · rw [last, last']
      · have := hf.final d hd kind'
        rw [zero] at this
        exact absurd this (UInt32.not_lt.mpr UInt32.zero_le)
    · rcases hg.last with ⟨zero, -⟩ | ⟨d, hd, kind', at', last'⟩
      · have := hg.final c hc kind
        rw [zero] at this
        exact absurd this (UInt32.not_lt.mpr UInt32.zero_le)
      · have slots : c.vote.slot = d.vote.slot := by
          grind
        rw [last, last', single c d hc hd slots (kind.trans kind'.symm)]
  · funext s k
    apply Option.ext
    intro c
    rw [hf.certs, hg.certs, horizon]

end

end Holds

/-! ## What the certificates determine -/

namespace Frontier

variable {b : UInt32} {f g : Frontier}

theorem Ended.unique (hf : f.Ended) (hg : g.Ended) (certs : g.certs = f.certs) :
    g.runs = f.runs := by
  have mem (x : UInt32) : x ∈ g.runs ↔ x ∈ f.runs := by
    rw [hf.ends, hg.ends]
    unfold Skipped
    rw [certs]
  have distinct {l : List UInt32} (h : Ascending l) : l.Nodup :=
    h.imp fun lt eq => absurd (eq ▸ lt) (UInt32.lt_irrefl _)
  have perm := (List.perm_ext_iff_of_nodup (distinct hg.ascending) (distinct hf.ascending)).mpr mem
  refine perm.eq_of_pairwise (fun a b _ _ lt gt => ?_) hg.ascending hf.ascending
  exact absurd (UInt32.lt_trans lt gt) (UInt32.lt_irrefl _)

/-- The base of an open slot follows from the certificates and the last finalization. -/
theorem Founded.unique (hf : f.Founded b) (hg : g.Founded b) (horizon : g.horizon = f.horizon)
    (certs : g.certs = f.certs) (last : g.last = f.last) {k : UInt32} (live : f.horizon ≤ k)
    (open_ : ¬ f.Skipped k) : g.base k = f.base k := by
  have open' : ¬ g.Skipped k := by
    rw [Skipped, certs]
    exact open_
  have there := hg.bases k (horizon ▸ live) open'
  have here := hf.bases k live open_
  refine (there.congr fun r => (Offers.congr certs last).symm).unique here fun r s hr hs => ?_
  exact hf.known_unique hr.known hs.known

theorem Present.unique (hf : f.Present b) (hg : g.Present b) (horizon : g.horizon = f.horizon)
    (certs : g.certs = f.certs) (openf : ¬ f.Settled f.now) (openg : ¬ g.Settled g.now) :
    g.now = f.now := by
  have settles (j : UInt32) : g.Settled j ↔ f.Settled j := by
    unfold Settled Skipped
    rw [certs]
  by_contra ne
  rcases UInt32.lt_or_lt_of_ne ne with lt | lt
  · exact openg ((settles _).mpr (hf.settled _ (horizon ▸ hg.live) lt))
  · exact openf ((settles _).mp (hg.settled _ (horizon ▸ hf.live) lt))

end Frontier

/-! ## Replay -/

namespace Engine

variable {cfg : Config} {e : Engine} {S : Certificate → Prop} {all : List Certificate}

/-- One certificate of a coherent set: it is pruned, or stored without an error. -/
theorem Replaying.next {cert : Certificate}
    (h : Replaying lastSlot e) (holds : Holds S e.pool.frontier) (coherent : Coherent all)
    (sub : ∀ c, S c → c ∈ all) (mem : cert ∈ all) (fresh : ¬ S cert) (rest : List Certificate) :
    ∃ e', e.replayCertificates cfg (cert :: rest) = e'.replayCertificates cfg rest ∧
      Replaying lastSlot e' ∧ Holds (fun c => c = cert ∨ S c) e'.pool.frontier := by
  have small := coherent.below cert mem
  rw [replayCertificates]
  cases here : e.pool.slots.get? cert.vote.slot with
  | none => exact ⟨e, rfl, h, holds.pruned (SlotMap.get?_eq_none.mp here)⟩
  | some slot =>
    have live := SlotMap.le_of_get? here
    have other (c : Certificate) (hc : S c) (slots : c.vote.slot = cert.vote.slot) :
        c.vote.kind ≠ cert.vote.kind := by
      intro kinds
      rw [coherent.unique c (sub c hc) cert mem slots kinds] at hc
      exact fresh hc
    have absent : slot.certByKind cert.vote.kind = none := by
      rw [Pool.certByKind_of_get? here]
      cases known : e.pool.certAt cert.vote.slot cert.vote.kind with
      | none => rfl
      | some c =>
        obtain ⟨hc, slots, kinds, -⟩ := (holds.certs _ _ c).mp known
        exact absurd kinds (other c hc slots)
    have needs : slot.needs cert.vote = true := by
      have saving := h.unsaved cert.vote.slot cert.vote.kind
      simp only [view, Pool.slotAt_of_get? here] at saving
      simp [PoolSlot.needs, absent, saving]
    have consistent : Consistent e.pool.frontier cert := by
      intro kind
      refine ⟨fun skipped => ?_, fun c hc => ?_⟩
      · obtain ⟨c, hc⟩ := Option.ne_none_iff_exists'.mp skipped
        obtain ⟨hc, slots, kinds, -⟩ := (holds.certs _ _ c).mp hc
        exact coherent.exclusive c (sub c hc) cert mem kinds kind slots
      · obtain ⟨hc, slots, kinds, -⟩ := (holds.certs _ _ c).mp hc
        exact coherent.agree c (sub c hc) cert mem kinds kind slots
    obtain ⟨next, absorbs, now⟩ : Replaying lastSlot (e.storeSavedCertificate cfg slot cert) ∧ _ :=
      h.store small here absent consistent
    refine ⟨e.storeSavedCertificate cfg slot cert, ?_, next, ?_⟩
    · dsimp only
      rw [if_pos needs, err?_of_healthy next.ok]
    · exact holds.absorb live (h.good.founded.lt_succ small) other absorbs now

/-- A replay of coherent certificates succeeds, and the set describes the result. -/
theorem replayCertificates_holds (coherent : Coherent all)
    (certs : List Certificate) (h : Replaying lastSlot e)
    (holds : Holds S e.pool.frontier) (sub : ∀ c, c ∈ certs ∨ S c → c ∈ all)
    (fresh : ∀ c ∈ certs, ¬ S c) (distinct : certs.Nodup) :
    (e.replayCertificates cfg certs).2 = none ∧
      Replaying lastSlot (e.replayCertificates cfg certs).1 ∧
      Holds (fun c => c ∈ certs ∨ S c) (e.replayCertificates cfg certs).1.pool.frontier := by
  induction certs generalizing e S with
  | nil => exact ⟨rfl, h, holds.congr fun c => by simp⟩
  | cons cert certs ih =>
    obtain ⟨new, distinct⟩ := List.nodup_cons.mp distinct
    obtain ⟨e', eq, h', holds'⟩ : ∃ e', e.replayCertificates cfg (cert :: certs) = _ ∧ _ :=
      h.next holds coherent (fun c hc => sub c (.inr hc)) (sub cert (.inl List.mem_cons_self))
        (fresh cert List.mem_cons_self) certs
    rw [eq]
    obtain ⟨done, replaying, result⟩ := ih h' holds'
      (fun c hc => sub c (by rw [List.mem_cons, or_assoc, or_left_comm]; exact hc))
      (fun c hc => not_or.mpr ⟨fun same => new (same ▸ hc), fresh c (List.mem_cons_of_mem _ hc)⟩)
      distinct
    refine ⟨done, replaying, result.congr fun c => ?_⟩
    rw [List.mem_cons, or_assoc, or_left_comm]

/-! ## Opening the session -/

/-! Nothing between the replay and the session fails, the signer apart. -/

theorem castVote_failed (e : Engine) (v : Vote) : (e.castVote cfg v false).failed = e.failed := by
  unfold castVote
  split
  · rfl
  · rfl

theorem tryVoteFinal_failed (e : Engine) (s : UInt32) (slot : VoterSlot) :
    (e.tryVoteFinal cfg s slot).failed = e.failed := by
  unfold tryVoteFinal
  split
  · rfl
  · split
    · exact castVote_failed e _
    · rfl

theorem voterNotarizationObserved_failed (e : Engine) (id : CandidateID) :
    (e.voterNotarizationObserved cfg id).failed = e.failed := by
  unfold voterNotarizationObserved
  split
  · rfl
  · exact tryVoteFinal_failed _ _ _

theorem onParentWaitDone_failed (e : Engine) (c : Candidate) (out : ParentWaitOutcome) :
    (e.onParentWaitDone cfg c out).failed = e.failed := by
  unfold onParentWaitDone
  split
  · rfl
  · split
    · rfl
    · rfl
    · rfl
    · split
      · rfl
      · split <;> rfl

theorem runDeferred_failed (e : Engine) (d : Deferred) :
    (e.runDeferred cfg d).failed = e.failed := by
  cases d with
  | onParentWaitDone c out => exact onParentWaitDone_failed e c out
  | voterNotarizationObserved id => exact voterNotarizationObserved_failed e id
  | _ => rfl

theorem drainPending_failed (e : Engine) : (e.drainPending cfg).failed = e.failed := by
  have loop (n : Nat) (e : Engine) : (drainLoop cfg n e).failed = e.failed := by
    induction n generalizing e with
    | zero => rfl
    | succ n ih =>
      unfold drainLoop
      split
      · rfl
      · exact (ih _).trans (runDeferred_failed _ _)
  exact loop _ e

theorem castStartupWindowSkips_failed (e : Engine) :
    (e.castStartupWindowSkips cfg).failed = e.failed := by
  have step (e : Engine) (i : UInt32) : (startupSkip cfg e i).failed = e.failed := by
    unfold startupSkip
    split
    · rfl
    · split
      · rfl
      · exact castVote_failed e _
  have loop (l : List UInt32) (e : Engine) : (l.foldl (startupSkip cfg) e).failed = e.failed := by
    induction l generalizing e with
    | nil => rfl
    | cons i l ih => exact (ih _).trans (step e i)
  exact loop _ e

theorem applyVote_failed (e : Engine) (idx : Nat) (v : Vote) (sig : Signature) :
    (e.applyVote cfg idx v sig true).1.failed = e.failed := by
  apply applyVote_keep (P := fun e' => e'.failed = e.failed)
  · rfl
  · intro strict
    cases strict
  · exact fun _ _ _ _ => rfl
  · rfl
  · exact fun _ _ _ same _ _ => same
  · intro e₁ slot same _ _
    exact handleCertificate_keep (P := fun e₁ => e₁.failed = _) same fun _ _ _ => same

theorem replayVotes_failed (votes : List Vote)
    (signs : votes = [] ∨ ∀ n p, cfg.sign n p ≠ none) (e : Engine) :
    (votes.foldl (replayVote cfg) e).failed = e.failed := by
  rcases signs with rfl | signs
  · rfl
  · have step (e : Engine) (v : Vote) : (replayVote cfg e v).failed = e.failed := by
      unfold replayVote castVote
      split
      · rfl
      · split
        · rfl
        · rw [if_pos rfl]
          unfold finishVoteCast
          split
          · rfl
          · dsimp only
            split
            next refused =>
              exact absurd refused (signs _ _)
            · rw [if_neg (by simp)]
              exact applyVote_failed _ _ _ _
    induction votes generalizing e with
    | nil => rfl
    | cons v votes ih => exact (ih _).trans (step e v)

theorem announceWindow_now (e : Engine) : (e.announceWindow cfg).pool.now = e.pool.now := by
  unfold announceWindow
  dsimp only
  split
  · rfl
  · split
    · unfold fatal
      split <;> rfl
    · obtain ⟨v, w, eq, -⟩ := windowObserved_eq cfg
        { e with pool := { e.pool with firstNonAnnouncedWindow := e.pool.now / cfg.spw + 1 } }
        e.pool.now (by assumption)
      rw [eq]
      rfl

theorem advancePresent_open {b : UInt32} (started : e.started = true) (ok : e.failed = false)
    (founded : e.pool.frontier.Founded b) (present : e.pool.frontier.Present b) :
    ¬ e.pool.frontier.Settled (e.advancePresent cfg).pool.now := by
  have spec := Pool.presentLoop_spec founded.toRooted 4294967296 e.pool.now present.live
    present.below (by have := b.toNat_lt; omega) present.settled
  unfold advancePresent
  rw [if_neg (by simp [started, ok])]
  rw [if_pos spec.1, announceWindow_now]
  exact spec.2.1

theorem startSession_eq (votes : List Vote) (signs : votes = [] ∨ ∀ n p, cfg.sign n p ≠ none) :
    ∃ e₁, e.startSession cfg votes = (e₁.advancePresent cfg).drainPending cfg ∧ Apart e e₁ ∧
      e₁.failed = e.failed ∧ e₁.started = true := by
  have loud : Apart e { e with suppressCertBroadcast := false } := {}
  have drained : Apart e ({ e with suppressCertBroadcast := false }.drainPending cfg) :=
    loud.trans Apart.drainPending
  have ok : ({ e with suppressCertBroadcast := false }.drainPending cfg).failed = e.failed :=
    drainPending_failed _
  unfold startSession openSession
  dsimp only
  generalize drainPending cfg _ = e₁ at drained ok ⊢
  have voted : Apart e₁ (votes.foldl (replayVote cfg) e₁) := Apart.replayVotes votes e₁
  have ok₂ := (replayVotes_failed votes signs e₁).trans ok
  generalize votes.foldl (replayVote cfg) e₁ = e₂ at voted ok₂ ⊢
  have skipped : Apart e₂ (if cfg.hasVoter then e₂.castStartupWindowSkips cfg else e₂) ∧
      (if cfg.hasVoter then e₂.castStartupWindowSkips cfg else e₂).failed = e.failed := by
    split
    · exact ⟨Apart.castStartupWindowSkips, (castStartupWindowSkips_failed e₂).trans ok₂⟩
    · exact ⟨Apart.refl e₂, ok₂⟩
  generalize (if cfg.hasVoter then _ else e₂ : Engine) = e₃ at skipped ⊢
  have begun : Apart e₃ { e₃ with
      started := true, standstillAt := some (e₃.clock + e₃.params.standstillTimeout) } :=
    { Apart.refl e₃ with }
  exact ⟨_, rfl, ((drained.trans voted).trans skipped.1).trans begun, skipped.2, rfl⟩

/-- The session opens on the frontier the replay left, at its first open slot. -/
theorem startSession_opens (h : Replaying lastSlot e) (votes : List Vote)
    (signs : votes = [] ∨ ∀ n p, cfg.sign n p ≠ none) :
    (e.startSession cfg votes).failed = false ∧
      (e.startSession cfg votes).pool.frontier =
        { e.pool.frontier with now := (e.startSession cfg votes).pool.now } ∧
      (e.startSession cfg votes).pool.frontier.Good lastSlot ∧
      ¬ e.pool.frontier.Settled (e.startSession cfg votes).pool.now := by
  obtain ⟨e₁, eq, aside, same, started⟩ := startSession_eq (e := e) votes signs
  have ok := same.trans h.ok
  have good : e₁.pool.frontier.Good lastSlot := by
    rw [aside.frontier]
    exact h.good
  have advanced : Advances cfg lastSlot e₁ (e₁.advancePresent cfg) :=
    advancePresent_advances ok good.founded good.present
  have open_ : ¬ e₁.pool.frontier.Settled (e₁.advancePresent cfg).pool.now :=
    advancePresent_open started ok good.founded good.present
  rw [eq]
  have drained : Apart (e₁.advancePresent cfg) ((e₁.advancePresent cfg).drainPending cfg) :=
    Apart.drainPending
  have now : ((e₁.advancePresent cfg).drainPending cfg).pool.now =
      (e₁.advancePresent cfg).pool.now := congrArg Frontier.now drained.frontier
  rw [drainPending_failed, drained.frontier, now, ← aside.frontier]
  refine ⟨advanced.failed.trans ok, advanced.frontier, ⟨?_, ?_, advanced.present⟩, open_⟩
  · rw [advanced.frontier]
    exact good.founded.congr rfl rfl rfl rfl
  · rw [advanced.frontier]
    exact good.ended.congr (fun _ => Iff.rfl) rfl

/-- `Start` on coherent certificates: the frontier they describe, at its first open slot. -/
theorem start_holds (cfg : Config) (params : Params) (clock : Time) (bs : BootstrapState)
    (verified : ∀ c ∈ bs.certificates, cfg.verifyCertificate c = .ok ())
    (coherent : Coherent bs.certificates) (distinct : bs.certificates.Nodup)
    (signs : bs.ourVotes = [] ∨ ∀ n p, cfg.sign n p ≠ none) :
    (start cfg params clock bs []).2 = none ∧
      (start cfg params clock bs []).1.pool.frontier.Good lastSlot ∧
      ¬ (start cfg params clock bs []).1.pool.frontier.Settled
        (start cfg params clock bs []).1.pool.now ∧
      ∃ f, Holds (fun c => c ∈ bs.certificates) f ∧
        (start cfg params clock bs []).1.pool.frontier =
          { f with now := (start cfg params clock bs []).1.pool.now } := by
  have valid := cfg.validateBootstrap_ok.mpr verified
  have prepared : Replaying lastSlot ((new params clock bs []).prepare cfg bs.ourVotes) :=
    prepare_replaying (UInt32.le_refl _) params clock bs
  obtain ⟨done, replaying, holds⟩ :
      (((new params clock bs []).prepare cfg bs.ourVotes).replayCertificates cfg
        bs.certificates).2 = none ∧ _ :=
    replayCertificates_holds coherent bs.certificates prepared
      (by rw [prepare_frontier]; exact Holds.initial) (fun c hc => hc.resolve_right id)
      (fun _ _ absurd => absurd) distinct
  unfold start
  rw [valid]
  dsimp only
  generalize ((new params clock bs []).prepare cfg bs.ourVotes).replayCertificates cfg
    bs.certificates = r at done replaying holds ⊢
  obtain ⟨e, err⟩ := r
  cases done
  obtain ⟨ok, frontier, good, open_⟩ : (e.startSession cfg bs.ourVotes).failed = false ∧ _ :=
    startSession_opens replaying bs.ourVotes signs
  refine ⟨err?_of_healthy ok, good, ?_, _, holds.congr fun c => by simp, frontier⟩
  rw [frontier]
  exact open_

end Engine

/-- Replaying a coherent set of verified certificates succeeds in any order, and reaches the
same horizon, last finalization, present slot, run ends and live certificates, and the same
base at every live slot without a skip certificate. -/
theorem certificate_replay_is_order_insensitive {cfg : Config} {params : Params} {clock : Time}
    {cursor : UInt32} {votes : List Vote} {certs certs' : List Certificate}
    (verified : ∀ c ∈ certs, cfg.verifyCertificate c = .ok ()) (coherent : Coherent certs)
    (distinct : certs.Nodup) (signs : votes = [] ∨ ∀ n p, cfg.sign n p ≠ none)
    (perm : certs'.Perm certs) :
    (Engine.start cfg params clock ⟨cursor, votes, certs⟩ []).2 = none ∧
    (Engine.start cfg params clock ⟨cursor, votes, certs'⟩ []).2 = none ∧
    let p := (Engine.start cfg params clock ⟨cursor, votes, certs⟩ []).1.pool
    let p' := (Engine.start cfg params clock ⟨cursor, votes, certs'⟩ []).1.pool
    p'.slots.firstNonFinalized = p.slots.firstNonFinalized ∧
      p'.lastFinalized = p.lastFinalized ∧ p'.now = p.now ∧ p'.skipRuns = p.skipRuns ∧
      ∀ k, p.slots.firstNonFinalized ≤ k → p'.certAt k = p.certAt k ∧
        (p.certAt k .skip = none → p'.base k = p.base k) := by
  have mem (c : Certificate) : c ∈ certs' ↔ c ∈ certs := perm.mem_iff
  have coherent' : Coherent certs' :=
    { unique := fun c hc d hd => coherent.unique c ((mem c).mp hc) d ((mem d).mp hd)
      exclusive := fun c hc d hd => coherent.exclusive c ((mem c).mp hc) d ((mem d).mp hd)
      agree := fun c hc d hd => coherent.agree c ((mem c).mp hc) d ((mem d).mp hd)
      below := fun c hc => coherent.below c ((mem c).mp hc) }
  obtain ⟨done, good, open_, f, holds, frontier⟩ :=
    Engine.start_holds cfg params clock ⟨cursor, votes, certs⟩ verified coherent distinct signs
  obtain ⟨done', good', open', f', holds', frontier'⟩ :=
    Engine.start_holds cfg params clock ⟨cursor, votes, certs'⟩
      (fun c hc => verified c ((mem c).mp hc)) coherent' (perm.nodup_iff.mpr distinct) signs
  refine ⟨done, done', ?_⟩
  generalize (Engine.start cfg params clock ⟨cursor, votes, certs⟩ []).1.pool = p
    at good open_ frontier ⊢
  generalize (Engine.start cfg params clock ⟨cursor, votes, certs'⟩ []).1.pool = p'
    at good' open' frontier' ⊢
  have up (c : Certificate) (hc : c ∈ certs) : c.vote.slot < c.vote.slot + 1 :=
    good.founded.lt_succ (coherent.below c hc)
  obtain ⟨horizon, last, stored⟩ := holds.unique (holds'.congr fun c => (mem c).symm) up
    fun c d hc hd => coherent.unique c hc d hd
  have horizon' : p'.frontier.horizon = p.frontier.horizon := by
    rw [frontier, frontier']
    exact horizon
  have last' : p'.frontier.last = p.frontier.last := by
    rw [frontier, frontier']
    exact last
  have stored' : p'.frontier.certs = p.frontier.certs := by
    rw [frontier, frontier']
    exact stored
  refine ⟨horizon', last', good.present.unique good'.present horizon' stored' open_ open',
    good.ended.unique good'.ended stored', fun k live => ⟨congrFun stored' k, fun unskipped => ?_⟩⟩
  exact good.founded.unique good'.founded horizon' stored' last' live fun skipped =>
    skipped unskipped

/-- The certificates of `soloJournal`, last first. -/
theorem certificate_replay_is_order_insensitive_solo :
    (Engine.start soloConfig soloParams 0 ⟨0, [], soloJournal.certificates.reverse⟩ []).2 = none ∧
      (Engine.start soloConfig soloParams 0
        ⟨0, [], soloJournal.certificates.reverse⟩ []).1.pool.base 4 =
          (Engine.start soloConfig soloParams 0 soloJournal []).1.pool.base 4 := by
  have coherent : Coherent soloJournal.certificates := by
    constructor <;> decide +kernel
  obtain ⟨-, done, -, -, -, -, live⟩ :
      (Engine.start soloConfig soloParams 0 ⟨0, [], soloJournal.certificates⟩ []).2 = none ∧ _ :=
    certificate_replay_is_order_insensitive (by decide +kernel) coherent (by decide +kernel)
      (.inl rfl) (List.reverse_perm soloJournal.certificates)
  exact ⟨done, (live 4 (by decide +kernel)).2 (by decide +kernel)⟩

/-- A notarization and a skip of the slot after it. -/
def notarizedThenSkipped : List Certificate :=
  [notarizeVote ⟨2, 0⟩, skipVote 3].map soloCert

/-- A skipped slot keeps the base it had when the skip certificate came. -/
theorem skipped_slot_base_depends_on_order :
    (Engine.start soloConfig soloParams 0 ⟨0, [], notarizedThenSkipped⟩ []).1.pool.base 3 =
        some (parent ⟨2, 0⟩) ∧
      (Engine.start soloConfig soloParams 0 ⟨0, [], notarizedThenSkipped.reverse⟩
        []).1.pool.base 3 =
        none ∧
      Coherent notarizedThenSkipped ∧
      (∀ c ∈ notarizedThenSkipped, soloConfig.verifyCertificate c = .ok ()) ∧
      (Engine.start soloConfig soloParams 0
        ⟨0, [], notarizedThenSkipped⟩ []).1.pool.slots.firstNonFinalized ≤ 3 := by
  refine ⟨by decide +kernel, by decide +kernel, ?_, by decide +kernel, by decide +kernel⟩
  constructor <;> decide +kernel

end Gton.Simplex
