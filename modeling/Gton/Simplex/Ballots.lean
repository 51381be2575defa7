import Gton.Simplex.Walk
import Mathlib.Data.List.Pairwise

/-!
# Own votes never contradict each other

The journal of own votes, the voting flags and the own record in the pool restrict each
other. What reaches the wire went through all three.
-/

namespace Gton.Simplex

open List Function ValidatorVotes

/-- Whether `b` may be journaled after `a` in one slot. A notarize vote may follow a finalize
vote for another candidate: the flags forget a notarize vote that a crash lost. -/
def Follows (a b : Vote) : Prop :=
  a.slot = b.slot →
    match a.kind, b.kind with
    | .notarize, .notarize | .notarize, .finalize | .finalize, .finalize => a.id = b.id
    | .finalize, .skip | .skip, .finalize => False
    | _, _ => True

/-- Events about own votes. -/
def Event.ballot : Event → Bool
  | .sign _ | .applied _ | .broadcastToAll _ | .broadcastToValidators _ => true
  | _ => false

/-- Own votes handed to the transport. -/
def OnWire (trace : List Event) (b : Vote) : Prop :=
  ∃ sig, .broadcastToAll (.vote b sig) ∈ trace ∨ .broadcastToValidators (.vote b sig) ∈ trace

/-- Whether an event sends the vote. -/
def Event.sends (b : Vote) : Event → Bool
  | .broadcastToAll (.vote a _) | .broadcastToValidators (.vote a _) => decide (a = b)
  | _ => false

variable {b : Vote} {v : View} {s : UInt32} {cfg : Config} {ev : Event} {id : CandidateID}

theorem onWire_iff {trace : List Event} : OnWire trace b ↔ trace.any (Event.sends b) = true := by
  rw [any_eq_true]
  constructor
  · rintro ⟨sig, h | h⟩ <;> exact ⟨_, h, by simp [Event.sends]⟩
  · rintro ⟨ev, h, sends⟩
    unfold Event.sends at sends
    split at sends
    · cases of_decide_eq_true sends
      exact ⟨_, .inl h⟩
    · cases of_decide_eq_true sends
      exact ⟨_, .inr h⟩
    · cases sends

instance (trace : List Event) (b : Vote) : Decidable (OnWire trace b) :=
  decidable_of_iff _ onWire_iff.symm

namespace View

def log (v : View) : List Vote := v.voteLog.map VoteRecord.vote

theorem mem_log_journalVote {a : Vote} (h : a ∈ (v.journalVote b).log) : a ∈ v.log ∨ a = b := by
  unfold log journalVote at h
  split at h
  · exact .inl h
  · rw [map_append, mem_append] at h
    exact h.imp_right mem_singleton.mp

theorem log_eq {w : View} (h : w.voteLog = v.voteLog) : w.log = v.log :=
  congrArg (List.map VoteRecord.vote) h

end View

/-- A record is old, was entered from a source, or was taken out of an answered certificate. -/
theorem Move.records {ctx : Ctx} {w : View} (m : Move cfg ctx v w)
    {i : Nat} {k : VoteKind} {p : Proven} (hp : (w.votes s i).byKind k = some p) :
    (v.votes s i).byKind k = some p ∨ p.vote.kind = k ∧ p.vote.slot = s ∧
      (p.cert = none ∧ v.Sourced cfg ctx i p.vote p.sig ∧ (∃ vv, w = v.enter cfg i p.vote vv) ∨
        ∃ cert, ctx.answered cert ∧ p.cert = some cert ∧ p.vote = cert.vote ∧
          ∃ t ∈ cert.signatures, t.validatorIndex = i) := by
  have added (q : Proven) {j : Nat}
      (found : (if s = q.vote.slot ∧ i = j then ((v.votes q.vote.slot j).add q).1
        else v.votes s i).byKind k = some p) :
      (v.votes s i).byKind k = some p ∨ p = q ∧ i = j ∧ p.vote.kind = k ∧ p.vote.slot = s := by
    split at found
    next here =>
      obtain ⟨rfl, rfl⟩ := here
      refine (mem_byKind_add found).imp_right ?_
      rintro ⟨rfl, rfl⟩
      exact ⟨rfl, rfl, rfl, rfl⟩
    · exact .inl found
  cases m with
  | quiet q => exact .inl (q.votes ▸ hp)
  | @apply j b sig vv sourced _ _ result =>
    have result : ((v.votes b.slot j).add ⟨b, sig, none⟩).1 = vv := congrArg Prod.fst result
    rw [View.votes_enter, ← result] at hp
    refine (added ⟨b, sig, none⟩ hp).imp_right ?_
    rintro ⟨rfl, rfl, kind, slot⟩
    exact ⟨kind, slot, .inl ⟨rfl, sourced, vv, rfl⟩⟩
  | extract answered mem =>
    rw [View.votes_setVotes] at hp
    refine (added ⟨_, _, some _⟩ hp).imp_right ?_
    rintro ⟨rfl, rfl, kind, slot⟩
    exact ⟨kind, slot, .inr ⟨_, answered, rfl, rfl, _, mem, rfl⟩⟩
  | store _ _ _ stored =>
    cases stored with
    | final =>
      rw [View.votes_finalizeCert] at hp
      split at hp
      · rw [byKind_empty] at hp
        cases hp
      · exact .inl hp
    | _ => exact .inl hp
  | _ => exact .inl hp

/-- `rest` are the journaled votes that are not replayed yet. -/
structure Ballots (cfg : Config) (rest : List Vote) (v : View) : Prop where
  voting : ∀ b ∈ v.log, cfg.hasVoter = true
  follows : v.log.Pairwise Follows
  saves : ∀ b ∈ v.voteSaves, b ∈ v.log
  signed : ∀ b, .sign b ∈ v.trace → ⟨b, true⟩ ∈ v.voteLog
  applied : ∀ b, .applied b ∈ v.trace → .sign b ∈ v.trace
  clean : ∀ a b, .applied b ∈ v.trace → a ∈ v.log → a.slot = b.slot → a.kind = .finalize →
    b.kind = .notarize → a.id = b.id
  flags : ∀ b ∈ v.log, v.voterHorizon ≤ b.slot → (v.voter b.slot).Flagged b
  horizons : v.voterHorizon ≤ v.horizon
  pruning : ∀ id, .voterFinalizationObserved id ∈ v.queue → id.slot + 1 ≤ v.horizon
  own : ∀ i s k p, cfg.localIndex = some i → (v.votes s i).byKind k = some p → p.cert = none →
    .applied p.vote ∈ v.trace ∧ p.vote.kind = k ∧ p.vote.slot = s
  guarded : v.failed = false → ∀ i b, cfg.localIndex = some i → b ∈ v.log → b.kind = .finalize →
    v.horizon ≤ b.slot → (v.voter b.slot).votedNotar = some b.id ∨
      (∃ p, (v.votes b.slot i).finalize = some p ∧ p.vote = b) ∨ b ∈ rest
  echo : ∀ p ∈ v.inbox, cfg.localIndex = some p.idx → cfg.verifyVote p.idx p.vote p.sig = true →
    .sign p.vote ∈ v.trace
  sent : ∀ b, OnWire v.trace b → .applied b ∈ v.trace
  drained : ∀ b sig, .vote b sig ∈ v.drain → .applied b ∈ v.trace

/-- Two views with the same ballots. -/
structure SameBallots (v w : View) : Prop where
  failed : v.failed = true → w.failed = true := by exact fun h => h
  voteLog : w.voteLog = v.voteLog := by rfl
  voteSaves : w.voteSaves ⊆ v.voteSaves := by exact fun _ h => h
  votedNotar : ∀ s, (w.voter s).votedNotar = (v.voter s).votedNotar := by exact fun _ => rfl
  votedFinal : ∀ s, (w.voter s).votedFinal = (v.voter s).votedFinal := by exact fun _ => rfl
  votedSkip : ∀ s, (w.voter s).votedSkip = (v.voter s).votedSkip := by exact fun _ => rfl
  voterHorizon : w.voterHorizon = v.voterHorizon := by rfl
  horizon : w.horizon = v.horizon := by rfl
  votes : w.votes = v.votes := by rfl
  queue : ∀ id, .voterFinalizationObserved id ∈ w.queue →
    .voterFinalizationObserved id ∈ v.queue := by
    exact fun _ h => h
  inbox : w.inbox ⊆ v.inbox := by exact fun _ h => h
  drain : w.drain ⊆ v.drain := by exact fun _ h => h
  trace : ∃ l, (∀ ev ∈ l, Event.ballot ev = false) ∧ w.trace = l ++ v.trace := by
    exact ⟨[], by simp, rfl⟩

theorem SameBallots.refl (v : View) : SameBallots v v := {}

namespace SameBallots

variable {v w : View} (h : SameBallots v w)
include h

theorem mem_trace (hb : ev.ballot = true) : ev ∈ w.trace ↔ ev ∈ v.trace := by
  obtain ⟨l, idle, e⟩ := h.trace
  rw [e, mem_append]
  constructor
  · rintro (hl | hv)
    · rw [idle ev hl] at hb; cases hb
    · exact hv
  · exact .inr

theorem onWire : OnWire w.trace b ↔ OnWire v.trace b := by
  have all {m : Message} : .broadcastToAll m ∈ w.trace ↔ .broadcastToAll m ∈ v.trace :=
    h.mem_trace rfl
  have some_ {m : Message} :
      .broadcastToValidators m ∈ w.trace ↔ .broadcastToValidators m ∈ v.trace := h.mem_trace rfl
  simp only [OnWire, all, some_]

theorem log : w.log = v.log := by rw [View.log, h.voteLog, View.log]

theorem flagged : (w.voter s).Flagged b ↔ (v.voter s).Flagged b := by
  unfold VoterSlot.Flagged
  rw [h.votedNotar, h.votedFinal, h.votedSkip]

theorem ballots {rest : List Vote} (hv : Ballots cfg rest v) : Ballots cfg rest w where
  voting b hb := hv.voting b (h.log ▸ hb)
  follows := by rw [h.log]; exact hv.follows
  saves b hb := by rw [h.log]; exact hv.saves b (h.voteSaves hb)
  signed b hb := by rw [h.voteLog]; exact hv.signed b ((h.mem_trace rfl).mp hb)
  applied b hb := (h.mem_trace rfl).mpr (hv.applied b ((h.mem_trace rfl).mp hb))
  clean a b hb ha := hv.clean a b ((h.mem_trace rfl).mp hb) (h.log ▸ ha)
  flags b hb live := h.flagged.mpr (hv.flags b (h.log ▸ hb) (h.voterHorizon ▸ live))
  horizons := by rw [h.voterHorizon, h.horizon]; exact hv.horizons
  pruning id hq := by rw [h.horizon]; exact hv.pruning id (h.queue id hq)
  own i s k p hi hp hc := by
    rw [h.votes] at hp
    exact (hv.own i s k p hi hp hc).imp_left (h.mem_trace rfl).mpr
  guarded ok i b hi hb hk live := by
    have alive : v.failed = false := by
      by_contra dead
      rw [h.failed (by simpa using dead)] at ok
      cases ok
    rw [h.votedNotar, h.votes]
    exact hv.guarded alive i b hi (h.log ▸ hb) hk (h.horizon ▸ live)
  echo p hp hi hs := (h.mem_trace rfl).mpr (hv.echo p (h.inbox hp) hi hs)
  sent b hb := (h.mem_trace rfl).mpr (hv.sent b (h.onWire.mp hb))
  drained b sig hd := (h.mem_trace rfl).mpr (hv.drained b sig (h.drain hd))

end SameBallots

/-! ## Casting -/

namespace CastRule

variable {s : UInt32} {slot slot' : VoterSlot} {a b : Vote}

theorem follows (h : CastRule s slot b slot') (ha : slot.Flagged a) : Follows a b := by
  intro _
  unfold VoterSlot.Flagged at ha
  cases h with
  | notarize _ _ _ _ fresh => cases hk : a.kind <;> simp_all
  | finalize _ voted notSkip notFinal => cases hk : a.kind <;> simp_all
  | skip notFinal => cases hk : a.kind <;> simp_all

theorem finalize_voted (h : CastRule s slot b slot') (kind : b.kind = .finalize) :
    slot'.votedNotar = some b.id := by
  cases h with
  | finalize _ voted => exact voted
  | notarize => cases kind
  | skip => cases kind

theorem keeps_votedNotar (h : CastRule s slot b slot')
    (hn : slot.votedNotar = some id) : slot'.votedNotar = some id := by
  cases h with
  | notarize _ _ _ _ fresh => rw [fresh] at hn; cases hn
  | finalize => exact hn
  | skip => exact hn

end CastRule

namespace Ballots

variable {cfg : Config} {ctx : Ctx} {rest : List Vote} {v : View} {b a : Vote} {i : Nat}
  {sig : Signature} {w : View}

section

variable (h : Ballots cfg rest v) (ha : a ∈ v.log) (hb : b ∈ v.log) (same : a.slot = b.slot)
include h ha hb same

omit ha same in
theorem notarize_flag (live : v.voterHorizon ≤ b.slot) (kind : b.kind = .notarize) :
    (v.voter b.slot).votedNotar = some b.id := by
  have := h.flags b hb live
  simpa only [VoterSlot.Flagged, kind] using this

omit same in
theorem comparable : a = b ∨ Follows a b ∨ Follows b a := by
  by_cases same : a = b
  · exact .inl same
  · have either : v.log.Pairwise fun a b => Follows a b ∨ Follows b a := h.follows.imp .inl
    have : Std.Symm fun a b => Follows a b ∨ Follows b a := ⟨fun _ _ h => h.symm⟩
    exact .inr (either.forall ha hb same)

theorem finalize_unique (hka : a.kind = .finalize) (hkb : b.kind = .finalize) : a = b := by
  rcases h.comparable ha hb with e | e | e
  · exact e
  · have := e same
    simp only [hka, hkb] at this
    cases a; cases b; simp_all
  · have := e same.symm
    cases a; cases b; simp_all

theorem finalize_not_skip (hka : a.kind = .finalize) (hkb : b.kind = .skip) : False := by
  rcases h.comparable ha hb with e | e | e
  · rw [e, hkb] at hka
    cases hka
  · simpa [hka, hkb] using e same
  · simpa [hka, hkb] using e same.symm

theorem notarize_unique (hka : a.kind = .notarize) (hkb : b.kind = .notarize) : a.id = b.id := by
  rcases h.comparable ha hb with e | e | e
  · rw [e]
  · simpa [hka, hkb] using e same
  · simpa [hka, hkb, eq_comm] using e same.symm

end

theorem mem_log_of_durable {d : Bool} (h : ⟨b, d⟩ ∈ v.voteLog) : b ∈ v.log :=
  mem_map.mpr ⟨_, h, rfl⟩

section

variable (h : Ballots cfg rest v) {slot : VoterSlot} {vv : ValidatorVotes}

include h

theorem applied_durable (hb : .applied b ∈ v.trace) : ⟨b, true⟩ ∈ v.voteLog :=
  h.signed b (h.applied b hb)

theorem setVoter (rule : CastRule s (v.voter s) b slot) : Ballots cfg rest (v.setVoter s slot) :=
  { h with
    flags := fun a ha live => by
      have old := h.flags a ha live
      by_cases hs : a.slot = s
      · subst hs
        simpa [View.setVoter] using rule.keeps old
      · simpa [View.setVoter, update_of_ne hs] using old
    guarded := fun ok i a hi ha hk live => by
      rcases h.guarded ok i a hi ha hk live with old | old | old
      · left
        by_cases hs : a.slot = s
        · subst hs
          simpa [View.setVoter] using rule.keeps_votedNotar old
        · simpa [View.setVoter, update_of_ne hs] using old
      · exact .inr (.inl old)
      · exact .inr (.inr old) }

/-- Append a vote the flags admit. -/
theorem journal (voter : cfg.hasVoter = true) (follows : ∀ a ∈ v.log, Follows a b)
    (flag : (v.voter b.slot).Flagged b)
    (final : b.kind = .finalize → (v.voter b.slot).votedNotar = some b.id)
    (live : v.voterHorizon ≤ b.slot) : Ballots cfg rest (v.journalVote b) := by
  by_cases known : v.voteLog.any (fun r => decide (r.vote = b)) = true
  · refine SameBallots.ballots ?_ h
    exact
      { SameBallots.refl v with
        voteLog := if_pos known
        voteSaves := by
          have same : (v.journalVote b).voteSaves = v.voteSaves := if_pos known
          rw [same]
          exact fun _ h => h
        trace := ⟨[.cast b], by simp [Event.ballot], rfl⟩ }
  · have log : (v.journalVote b).voteLog = v.voteLog ++ [⟨b, false⟩] := if_neg known
    have saves : (v.journalVote b).voteSaves = v.voteSaves ++ [b] := if_neg known
    have votes : (v.journalVote b).log = v.log ++ [b] := by
      rw [View.log, log, map_append]
      rfl
    have mem {a : Vote} : a ∈ (v.journalVote b).log ↔ a ∈ v.log ∨ a = b := by simp [votes]
    have trace {ev : Event} (hb : ev.ballot = true) :
        ev ∈ (v.journalVote b).trace ↔ ev ∈ v.trace := by
      refine mem_cons.trans ⟨?_, .inr⟩
      rintro (rfl | he)
      · cases hb
      · exact he
    refine { h with
      voting := fun _ _ => voter, follows := ?_, saves := ?_, signed := ?_, applied := ?_,
      clean := ?_, flags := ?_, own := ?_,
      guarded := ?_, echo := ?_, sent := ?_, drained := ?_ }
    · rw [votes, pairwise_append]
      exact ⟨h.follows, pairwise_singleton _ _, fun a ha c hc => by
        rw [mem_singleton.mp hc]; exact follows a ha⟩
    · intro c hc
      rw [saves, mem_append, mem_singleton] at hc
      exact mem.mpr (hc.imp_left (h.saves c))
    · intro c hc
      rw [log]
      exact mem_append_left _ (h.signed c ((trace rfl).mp hc))
    · intro c hc
      exact (trace rfl).mpr (h.applied c ((trace rfl).mp hc))
    · intro a c hc ha hs hka hkc
      have happ := (trace rfl).mp hc
      rcases mem.mp ha with ha | rfl
      · exact h.clean a c happ ha hs hka hkc
      · have voted := h.notarize_flag (mem_log_of_durable (h.applied_durable happ)) (hs ▸ live) hkc
        rw [← hs, final hka] at voted
        exact Option.some.inj voted
    · intro a ha hl
      rcases mem.mp ha with ha | rfl
      · exact h.flags a ha hl
      · exact flag
    · intro i s k p hi hp hc
      exact (h.own i s k p hi hp hc).imp_left (trace rfl).mpr
    · intro ok i a hi ha hk hl
      rcases mem.mp ha with ha | rfl
      · exact h.guarded ok i a hi ha hk hl
      · exact .inl (final hk)
    · intro p hp hi hv
      exact (trace rfl).mpr (h.echo p hp hi hv)
    · rintro c ⟨sig, hc⟩
      exact (trace rfl).mpr (h.sent c ⟨sig, hc.imp (trace rfl).mp (trace rfl).mp⟩)
    · intro c sig hc
      exact (trace rfl).mpr (h.drained c sig hc)

theorem cast (rule : CastRule s (v.voter s) b slot)
    (live : v.voterHorizon ≤ s) (voter : cfg.hasVoter = true) :
    Ballots cfg rest ((v.setVoter s slot).journalVote b) := by
  have hs := rule.slot_eq
  subst hs
  have here : (v.setVoter b.slot slot).voter b.slot = slot := update_self ..
  refine (h.setVoter rule).journal voter ?_ ?_ ?_ live
  · intro a ha same
    exact rule.follows (same ▸ h.flags a ha (same ▸ live)) same
  · rw [here]
    exact rule.flagged
  · rw [here]
    exact rule.finalize_voted

/-! ## Signing, applying and sending -/

/-- What an input grants is in line with the journal. While votes wait for their replay they
come in journal order, and there are no messages. -/
structure Granted (cfg : Config) (ctx : Ctx) (rest : List Vote) (v : View) : Prop where
  acked : ∀ b, ctx.acked b → ⟨b, true⟩ ∈ v.voteLog
  arrived : ∀ p, ctx.arrived p → cfg.localIndex = some p.idx →
    cfg.verifyVote p.idx p.vote p.sig = true → .sign p.vote ∈ v.trace
  ordered : ∀ b, ctx.acked b → ∀ a ∈ rest, a.slot = b.slot → a.kind = .finalize →
    b.kind = .notarize → a.id = b.id
  silent : rest ≠ [] → (∀ p, ¬ ctx.arrived p) ∧ v.inbox = []

theorem sourced_signed (own : cfg.localIndex = some i) (sourced : v.Sourced cfg ctx i b sig) :
    .sign b ∈ v.trace := by
  rcases sourced with ⟨-, -, hs⟩ | ⟨⟨src, mem⟩, valid⟩
  · exact hs
  · exact h.echo _ mem own valid

omit h in
theorem sourced_ordered (g : Granted cfg ctx rest v) (sourced : v.Sourced cfg ctx i b sig)
    (ha : a ∈ rest) (same : a.slot = b.slot) (hka : a.kind = .finalize) (hkb : b.kind = .notarize) :
    a.id = b.id := by
  rcases sourced with ⟨-, acked, -⟩ | ⟨⟨src, mem⟩, -⟩
  · exact g.ordered b acked a ha same hka hkb
  · rw [(g.silent (ne_nil_of_mem ha)).2] at mem
    cases mem

/-- An own notarize vote that enters the record agrees with a journaled finalize vote: the
finalize vote is in the record already, or our notarize vote is the flagged one. -/
theorem apply_clean (g : Granted cfg ctx rest v)
    {ev : Option ConflictEvidence} (sourced : v.Sourced cfg ctx i b sig)
    (own : cfg.localIndex = some i) (ok : v.failed = false) (live : v.horizon ≤ b.slot)
    (hb : b ∈ v.log) (added : (v.votes b.slot i).add ⟨b, sig, none⟩ = (vv, true, ev))
    (ha : a ∈ v.log) (same : a.slot = b.slot) (hka : a.kind = .finalize)
    (hkb : b.kind = .notarize) : a.id = b.id := by
  obtain ⟨-, rfl, consistent⟩ := add_applied added
  rcases h.guarded ok i a own ha hka (same ▸ live) with voted | ⟨p, hp, rfl⟩ | waiting
  · rw [same, h.notarize_flag hb (UInt32.le_trans h.horizons live) hkb] at voted
    exact (Option.some.inj voted).symm
  · rw [same] at hp
    have := (ValidatorVotes.checkInvariants_eq_none.mp consistent p
      (by simpa [ValidatorVotes.setKind, hkb] using hp)).1 ⟨b, sig, none⟩
      (by simp [ValidatorVotes.setKind, hkb])
    exact this.symm
  · exact sourced_ordered g sourced waiting same hka hkb

theorem apply (g : Granted cfg ctx rest v)
    (sourced : v.Sourced cfg ctx i b sig) (live : v.horizon ≤ b.slot) (ok : v.failed = false)
    (added : (v.votes b.slot i).add ⟨b, sig, none⟩ = (vv, true, none)) :
    Ballots cfg rest (v.enter cfg i b vv) := by
  obtain ⟨absent, rfl, -⟩ := add_applied added
  have votes (t : UInt32) (j : Nat) := View.votes_enter cfg v i j b t
    ((v.votes b.slot i).setKind b.kind (some ⟨b, sig, none⟩))
  have trace {ev : Event} : ev ∈ (v.enter cfg i b
      ((v.votes b.slot i).setKind b.kind (some ⟨b, sig, none⟩))).trace →
      ev ∈ v.trace ∨ (ev = .applied b ∧ cfg.localIndex = some i) := by
    intro hev
    unfold View.enter at hev
    split at hev
    next own =>
      exact (mem_cons.mp hev).symm.imp_right fun e => ⟨e, own⟩
    · exact .inl hev
  have grown {ev : Event} (hev : ev ∈ v.trace) :=
    (Move.apply sourced live ok added).grows.trace.subset hev
  have durable (own : cfg.localIndex = some i) := h.signed b (h.sourced_signed own sourced)
  refine { h with
    signed := ?_, applied := ?_, clean := ?_, own := ?_, guarded := ?_, echo := ?_, sent := ?_,
    drained := ?_ }
  · intro c hc
    exact h.signed c ((trace hc).resolve_right (by simp))
  · intro c hc
    rcases trace hc with hc | ⟨hc, own⟩
    · exact grown (h.applied c hc)
    · cases hc
      exact grown (h.sourced_signed own sourced)
  · intro a c hc ha hs hka hkc
    rcases trace hc with hc | ⟨hc, own⟩
    · exact h.clean a c hc ha hs hka hkc
    · cases hc
      exact h.apply_clean g sourced own ok live (mem_log_of_durable (durable own))
        added ha hs hka hkc
  · intro j t k p hj hp hc
    rw [votes] at hp
    split at hp
    next here =>
      obtain ⟨rfl, rfl⟩ := here
      rw [byKind_setKind] at hp
      split at hp
      next hk =>
        cases hp
        exact ⟨by simp [View.enter, hj], hk.symm, rfl⟩
      · exact (h.own j b.slot k p hj hp hc).imp_left grown
    · exact (h.own j t k p hj hp hc).imp_left grown
  · intro ok j a hj ha hk hl
    refine (h.guarded ok j a hj ha hk hl).imp_right (Or.imp_left ?_)
    rintro ⟨p, hp, hpa⟩
    refine ⟨p, ?_, hpa⟩
    rw [votes]
    split
    next here =>
      rw [here.1, here.2] at hp
      have kept : ((v.votes b.slot i).setKind b.kind (some ⟨b, sig, none⟩)).byKind .finalize = _ :=
        byKind_setKind ..
      rw [if_neg (fun e => by rw [← e] at absent; cases hp.symm.trans absent)] at kept
      exact kept.trans hp
    · exact hp
  · intro p hp hi hv
    exact grown (h.echo p hp hi hv)
  · rintro c ⟨sig, hc⟩
    refine grown (h.sent c ⟨sig, hc.imp ?_ ?_⟩) <;>
    · intro hc
      exact (trace hc).resolve_right (by simp)
  · intro c sig hc
    exact grown (h.drained c sig hc)

theorem sign (durable : ⟨b, true⟩ ∈ v.voteLog) : Ballots cfg rest (v.emit (.sign b)) :=
  { h with
    signed := fun c hc => by
      rcases mem_cons.mp hc with hc | hc
      · cases hc
        exact durable
      · exact h.signed c hc
    applied := fun c hc => mem_cons_of_mem _ (h.applied c (by simpa [View.emit] using hc))
    clean := fun a c hc => h.clean a c (by simpa [View.emit] using hc)
    own := fun i s k p hi hp hc => (h.own i s k p hi hp hc).imp_left (mem_cons_of_mem _)
    echo := fun p hp hi hv => mem_cons_of_mem _ (h.echo p hp hi hv)
    sent := fun c hc => mem_cons_of_mem _ (h.sent c (by simpa [OnWire, View.emit] using hc))
    drained := fun c sig hc => mem_cons_of_mem _ (h.drained c sig hc) }

/-- A vote message may leave once its vote is in the own record. -/
theorem transmit (sent : ∀ b, OnWire [ev] b → .applied b ∈ v.trace)
    (kind : (∃ m, ev = .broadcastToAll m) ∨ ∃ m, ev = .broadcastToValidators m) :
    Ballots cfg rest (v.emit ev) := by
  have old {x : Event} (hx : x ∈ (v.emit ev).trace) (ne : x ≠ ev) : x ∈ v.trace :=
    (mem_cons.mp hx).resolve_left ne
  have ne {b : Vote} : Event.sign b ≠ ev ∧ Event.applied b ≠ ev := by
    rcases kind with ⟨m, rfl⟩ | ⟨m, rfl⟩ <;> exact ⟨Event.noConfusion, Event.noConfusion⟩
  exact { h with
    signed := fun c hc => h.signed c (old hc ne.1)
    applied := fun c hc => mem_cons_of_mem _ (h.applied c (old hc ne.2))
    clean := fun a c hc => h.clean a c (old hc ne.2)
    own := fun i s k p hi hp hc => (h.own i s k p hi hp hc).imp_left (mem_cons_of_mem _)
    echo := fun p hp hi hv => mem_cons_of_mem _ (h.echo p hp hi hv)
    sent := by
      rintro c ⟨sig, hc⟩
      refine mem_cons_of_mem _ ?_
      by_cases here : OnWire [ev] c
      · exact sent c here
      · refine h.sent c ⟨sig, hc.imp (fun hc => old hc ?_) (fun hc => old hc ?_)⟩ <;>
        · rintro rfl
          exact here ⟨sig, by simp⟩
    drained := fun c sig hc => mem_cons_of_mem _ (h.drained c sig hc) }

theorem finalizeCert (cert : Certificate) : Ballots cfg rest (v.finalizeCert cert) := by
  have raised := View.le_raise v.horizon cert.vote.slot
  have votes := v.votes_finalizeCert cert
  have trace {ev : Event} (hb : ev.ballot = true) :
      ev ∈ (v.finalizeCert cert).trace ↔ ev ∈ v.trace := by
    refine mem_cons.trans ⟨?_, .inr⟩
    rintro (rfl | he)
    · cases hb
    · exact he
  exact { h with
    signed := fun b hb => h.signed b ((trace rfl).mp hb)
    applied := fun b hb => (trace rfl).mpr (h.applied b ((trace rfl).mp hb))
    clean := fun a b hb => h.clean a b ((trace rfl).mp hb)
    horizons := UInt32.le_trans h.horizons raised
    pruning := fun id hq => by
      rcases mem_append.mp hq with hq | hq
      · exact UInt32.le_trans (h.pruning id hq) raised
      · cases mem_singleton.mp hq
        exact View.lt_raise ..
    own := fun i s k p hi hp hc => by
      rw [votes] at hp
      split at hp
      · rw [byKind_empty] at hp
        cases hp
      · exact (h.own i s k p hi hp hc).imp_left (trace rfl).mpr
    guarded := fun ok i b hi hb hk live => by
      have kept : View.raise v.horizon cert.vote.slot ≤ b.slot := live
      rw [votes, if_neg (UInt32.not_lt.mpr kept)]
      exact h.guarded ok i b hi hb hk (UInt32.le_trans raised live)
    echo := fun p hp hi hv => (trace rfl).mpr (h.echo p hp hi hv)
    sent := fun b ⟨sig, hb⟩ =>
      (trace rfl).mpr (h.sent b ⟨sig, hb.imp (trace rfl).mp (trace rfl).mp⟩)
    drained := fun b sig hb => by cases hb }

theorem pruneVoter (queued : .voterFinalizationObserved id ∈ v.queue) :
    Ballots cfg rest (v.pruneVoter (View.raise v.voterHorizon id.slot)) := by
  have raised := View.le_raise v.voterHorizon id.slot
  have below : View.raise v.voterHorizon id.slot ≤ v.horizon := by
    unfold View.raise
    split
    · exact h.horizons
    · exact h.pruning id queued
  exact { h with
    flags := fun b hb live => by
      rw [View.voter_pruneVoter live]
      exact h.flags b hb (UInt32.le_trans raised live)
    horizons := below
    guarded := fun ok i b hi hb hk live => by
      have kept : (v.pruneVoter (View.raise v.voterHorizon id.slot)).voterHorizon ≤ b.slot :=
        UInt32.le_trans below live
      rw [View.voter_pruneVoter kept]
      exact h.guarded ok i b hi hb hk live }

theorem extract (cert : Certificate) (i : Nat) (sig : Signature) :
    Ballots cfg rest (v.setVotes cert.vote.slot i
      ((v.votes cert.vote.slot i).add ⟨cert.vote, sig, some cert⟩).1) :=
  { h with
    own := fun j s k p hj hp hc => by
      rw [View.votes_setVotes] at hp
      split at hp
      next here =>
        rcases mem_byKind_add hp with hp | ⟨rfl, -⟩
        · rw [here.1]
          exact h.own i _ k p (here.2 ▸ hj) hp hc
        · cases hc
      · exact h.own j s k p hj hp hc
    guarded := fun ok j b hj hb hk live => by
      refine (h.guarded ok j b hj hb hk live).imp_right (Or.imp_left ?_)
      rintro ⟨p, hp, hpb⟩
      refine ⟨p, ?_, hpb⟩
      rw [View.votes_setVotes]
      split
      next here =>
        rw [here.1, here.2] at hp
        exact byKind_add (k := .finalize) hp
      · exact hp }

theorem move (g : Granted cfg ctx rest v) (m : Move cfg ctx v w) : Ballots cfg rest w := by
  have same := SameBallots.refl v
  have voterSame {v : View} (h : Ballots cfg rest v) {s : UInt32} {slot : VoterSlot}
      (h₁ : slot.votedNotar = (v.voter s).votedNotar)
      (h₂ : slot.votedFinal = (v.voter s).votedFinal)
      (h₃ : slot.votedSkip = (v.voter s).votedSkip) : Ballots cfg rest (v.setVoter s slot) := by
    refine SameBallots.ballots (w := v.setVoter s slot) { SameBallots.refl v with
      votedNotar := ?_, votedFinal := ?_, votedSkip := ?_ } h <;>
    · intro j
      unfold View.setVoter
      by_cases hj : j = s
      · subst hj
        simp [h₁, h₂, h₃]
      · simp [hj]
  have emitted {v : View} (h : Ballots cfg rest v) {ev : Event} (idle : ev.ballot = false) :
      Ballots cfg rest (v.emit ev) := by
    refine SameBallots.ballots ?_ h
    exact { SameBallots.refl v with trace := ⟨[ev], by simpa using idle, rfl⟩ }
  have popped {rest' : List Deferred} {d : Deferred} (hq : v.queue = d :: rest') :
      Ballots cfg rest { v with queue := rest' } := by
    refine SameBallots.ballots ?_ h
    exact { same with queue := fun id hid => by rw [hq]; exact mem_cons_of_mem _ hid }
  cases m with
  | quiet q =>
    obtain ⟨l, idle, e⟩ := q.trace
    refine SameBallots.ballots ?_ h
    exact
      { failed := q.failed, voteLog := q.voteLog, voteSaves := q.voteSaves
        votedNotar := fun s => by rw [q.voter]
        votedFinal := fun s => by rw [q.voter]
        votedSkip := fun s => by rw [q.voter]
        voterHorizon := q.voterHorizon, horizon := q.horizon, votes := q.votes
        queue := fun id hid => (q.queue _ hid).resolve_right (by simp [Deferred.idle])
        inbox := q.inbox, drain := q.drain
        trace := ⟨l, fun ev hev => by
          have := idle ev hev
          cases ev <;> simp_all [Event.idle, Event.ballot], e⟩ }
  | begin =>
    refine SameBallots.ballots ?_ h
    exact { same with }
  | cast rule live _ voter => exact h.cast rule live voter
  | flag rule => exact h.setVoter rule
  | observe queued => exact voterSame (popped queued) rfl rfl rfl
  | pruneVoter queued =>
    have pruned := h.pruneVoter (by rw [queued]; exact mem_cons_self)
    refine SameBallots.ballots ?_ pruned
    exact { SameBallots.refl (v.pruneVoter _) with
      queue := fun id hid => queued ▸ mem_cons_of_mem _ hid }
  | accept =>
    refine emitted ?_ rfl
    exact voterSame h rfl rfl rfl
  | wait =>
    refine SameBallots.ballots ?_ h
    exact { same with }
  | @settle c pool =>
    have settled : Ballots cfg rest (v.emit (.parentSettled c pool)) := emitted h rfl
    refine SameBallots.ballots ?_ settled
    exact { SameBallots.refl (v.emit _) with
      queue := fun id hid => (mem_append.mp hid).resolve_right (by simp) }
  | parentDone queued => exact voterSame (popped queued) rfl rfl rfl
  | validated =>
    refine emitted ?_ rfl
    exact voterSame h rfl rfl rfl
  | stored =>
    refine emitted ?_ rfl
    exact voterSame h rfl rfl rfl
  | dropped => exact voterSame h rfl rfl rfl
  | sign durable => exact h.sign (g.acked _ durable)
  | apply sourced live ok added => exact h.apply g sourced live ok added
  | conflict =>
    refine SameBallots.ballots ?_ h
    exact { same with failed := fun _ => rfl }
  | send applied =>
    refine h.transmit ?_ (.inl ⟨_, rfl⟩)
    rintro b ⟨sig, hb⟩
    simp only [mem_singleton, Event.broadcastToAll.injEq, Message.vote.injEq, reduceCtorEq,
      or_false] at hb
    rw [hb.1]
    exact applied
  | resend queued =>
    refine h.transmit ?_ (.inr ⟨_, rfl⟩)
    rintro b ⟨sig, hb⟩
    simp only [mem_singleton, Event.broadcastToValidators.injEq, reduceCtorEq,
      false_or] at hb
    rw [← hb] at queued
    exact h.drained b sig queued
  | standstill own =>
    refine { h with drained := fun b sig hb => ?_ }
    obtain ⟨i, s, k, p, hi, hp, hc, rfl⟩ := own b sig hb
    exact (h.own i s k p hi hp hc).1
  | buffer arrived =>
    refine { h with echo := fun p hp hi hv => ?_ }
    rcases mem_append.mp hp with hp | hp
    · exact h.echo p hp hi hv
    · rw [mem_singleton.mp hp] at hi hv ⊢
      exact g.arrived _ arrived hi hv
  | save =>
    refine SameBallots.ballots ?_ h
    exact { same with }
  | extract => exact h.extract _ _ _
  | store _ _ _ stored =>
    cases stored with
    | notar =>
      refine SameBallots.ballots ?_ h
      refine { same with queue := fun id hid => ?_, trace := ⟨[_], ?_, rfl⟩ }
      · exact (mem_append.mp hid).resolve_right (by simp)
      · simp [Event.ballot]
    | skip =>
      refine SameBallots.ballots ?_ h
      exact { same with trace := ⟨[_], by simp [Event.ballot], rfl⟩ }
    | final => exact h.finalizeCert _
    | failed =>
      refine SameBallots.ballots ?_ h
      exact { same with failed := fun _ => rfl, trace := ⟨[_], by simp [Event.ballot], rfl⟩ }

omit h in
theorem Granted.move (g : Granted cfg ctx rest v) (m : Move cfg ctx v w) :
    Granted cfg ctx rest w := by
  have grown := m.grows
  refine ⟨fun b hb => grown.voteLog.subset (g.acked b hb),
    fun p hp hi hv => grown.trace.subset (g.arrived p hp hi hv), g.ordered, fun replaying => ?_⟩
  obtain ⟨arrived, inbox⟩ := g.silent replaying
  refine ⟨arrived, ?_⟩
  cases m with
  | quiet q =>
    have sub := q.inbox
    rw [inbox] at sub
    exact subset_nil.mp sub
  | buffer ha => exact (arrived _ ha).elim
  | store _ _ _ stored => cases stored <;> exact inbox
  | _ => exact inbox

theorem moves (g : Granted cfg ctx rest v) (m : Moves cfg ctx v w) :
    Ballots cfg rest w ∧ Granted cfg ctx rest w := by
  induction m with
  | refl => exact ⟨h, g⟩
  | tail _ m ih => exact ⟨ih.1.move ih.2 m, ih.2.move m⟩

end

end Ballots

end Gton.Simplex
