import Gton.Simplex.Certified

/-!
# A network of validators

One engine per honest validator, any messages the faulty ones can produce, any interleaving,
crashes and restarts. Finalized candidates lie on one chain.
-/

namespace Gton.Simplex

open List Function

theorem Config.sum_power (cfg : Config) :
    ∑ i ∈ cfg.roster, cfg.power i = totalWeight cfg.validators := by
  unfold Config.roster Config.power Config.weight totalWeight
  induction cfg.validators with
  | nil => rfl
  | cons v rest ih =>
    rw [length_cons, Finset.sum_range_succ', map_cons, sum_cons, ← ih, Nat.add_comm]
    simp

/-! ## Worlds -/

/-- One session: what all validators share, each one's signer, and who follows the protocol. -/
structure Network where
  base : Config
  sign : Nat → Nat → Payload → Option Signature
  honest : Nat → Bool

/-- The engine of each validator. -/
abbrev World := Nat → Engine

/-- Inputs that bring nothing from other nodes. -/
def Input.isLocal : Input → Bool
  | .message .. => false
  | _ => true

/-- Whether an event stores the certificate. -/
def Event.stores (c : Certificate) : Event → Bool
  | .certStored d => decide (d = c)
  | _ => false

/-- Whether an event enters the vote. -/
def Event.enters (b : Vote) : Event → Bool
  | .applied a => decide (a = b)
  | _ => false

variable {trace : List Event}

theorem mem_of_stores {c : Certificate}
    (h : trace.any (Event.stores c) = true) : .certStored c ∈ trace := by
  obtain ⟨ev, mem, stores⟩ := any_eq_true.mp h
  unfold Event.stores at stores
  split at stores
  · rwa [of_decide_eq_true stores] at mem
  · cases stores

theorem mem_of_enters {b : Vote} (h : trace.any (Event.enters b) = true) : .applied b ∈ trace := by
  obtain ⟨ev, mem, enters⟩ := any_eq_true.mp h
  unfold Event.enters at enters
  split at enters
  · rwa [of_decide_eq_true enters] at mem
  · cases enters

namespace Network

section

variable (net : Network)

def cfg (i : Nat) : Config := { net.base with localIndex := some i, sign := net.sign i }

/-- Which votes validators have put their signature to. A faulty validator signs anything. An
honest one hands a signature out only after the vote entered its own record. -/
def Made (w : World) (i : Nat) (b : Vote) : Prop :=
  net.honest i = false ∨ .applied b ∈ (w i).trace

/-- Signatures are not forged: one that verifies was given by the validator. -/
def Genuine (w : World) (i : Nat) (b : Vote) (sig : Signature) : Prop :=
  net.base.verifyVote i b sig = true → net.Made w i b.decoded

def GenuineCertificate (w : World) (cert : Certificate) : Prop :=
  ∀ s ∈ cert.signatures, net.Genuine w s.validatorIndex cert.vote s.signature

/-- Any message may arrive, from anyone and at any time, with signatures that exist. -/
def Unforged (w : World) (input : Input) : Prop :=
  ∀ src from_ m, input = .message src from_ m →
    (∀ p, m.votes from_ p → net.Genuine w p.idx p.vote p.sig) ∧
      ∀ c, m.certifies c → net.GenuineCertificate w c

/-- All interleavings of the honest validators' inputs, crashes and restarts. A journal keeps
the acknowledged votes; of the certificates it may lose or show any. -/
inductive Reachable : World → Prop where
  | boot (params : Nat → Params) (clock : Nat → Time) :
      Reachable fun i => (Engine.start (net.cfg i) (params i) (clock i) ⟨0, [], []⟩ []).1
  | step {w : World} (i : Nat) (t : Time) {input : Input} : Reachable w → net.honest i = true →
      (w i).started = true → net.Unforged w input →
      Reachable (Function.update w i ((w i).step (net.cfg i) t input))
  | restart {w : World} (i : Nat) (params : Params) (clock : Time) {bs : BootstrapState} :
      Reachable w → net.honest i = true → VotesKept (w i).journal.votes bs →
      (∀ c ∈ bs.certificates, net.GenuineCertificate w c) →
      Reachable (Function.update w i (Engine.start (net.cfg i) params clock bs (w i).trace).1)

/-- An admitted roster with less than a third of the weight faulty. -/
structure Trusted : Prop where
  admitted : ∃ total, totalValidatorWeight net.base.validators = .ok total
  minority : 3 * Quorum.weight net.base.roster net.base.power {i | net.honest i = false} <
    totalWeight net.base.validators

/-- The votes a quorum is behind. -/
def Backed (w : World) : Vote → Prop := net.base.Backed (net.Made w)

/-- The state of a network in which every honest node keeps its invariants. -/
structure Upholds (w : World) : Prop where
  node : ∀ i, net.honest i = true →
    Simplex.Reachable (net.cfg i) (voteKeeping (net.cfg i)) (w i)
  past : ∀ i, net.honest i = true → Past (net.cfg i) (net.Backed w) (w i).view
  running : ∀ i, net.honest i = true → (w i).started = true →
    Upheld (net.cfg i) (net.Made w) (w i).view

end

variable {net : Network} {w w' : World} {i : Nat} {b : Vote} {input : Input} {e : Engine}

theorem admitted_cfg {c : Candidate} : (net.cfg i).Admitted c ↔ net.base.Admitted c :=
  ⟨fun h => ⟨h.shape, h.identity, h.scheduled, h.authority⟩,
    fun h => ⟨h.shape, h.identity, h.scheduled, h.authority⟩⟩

theorem link_cfg (i : Nat) : (net.cfg i).Link = net.base.Link := by
  funext id p
  cases p <;> simp only [Config.Link, admitted_cfg]

theorem onChain_cfg {B : Vote → Prop} {id : CandidateID} :
    (net.cfg i).OnChain B id ↔ net.base.OnChain B id := by
  simp only [Config.OnChain, Config.Ordered, link_cfg]

theorem Backed.mono (h : net.Backed w b) (more : ∀ i b, net.Made w i b → net.Made w' i b) :
    net.Backed w' b :=
  Config.Backed.mono h fun i => more i _

/-! ## Quorums -/

section

variable (trusted : net.Trusted) (exact_ : totalWeight net.base.validators < 2 ^ 64)
include trusted exact_

theorem Trusted.large :
    (∑ i ∈ net.base.roster, net.base.power i) +
        Quorum.weight net.base.roster net.base.power {i | net.honest i = false} <
      2 * net.base.threshold.toNat := by
  obtain ⟨total, admitted⟩ := trusted.admitted
  rw [Config.threshold_eq admitted, threshold_of_total admitted exact_, Config.sum_power]
  have minority := trusted.minority
  omega

omit trusted exact_ in
theorem applied_of_made (made : net.Made w i b) (honest : ¬ net.honest i = false) :
    net.honest i = true ∧ .applied b ∈ (w i).trace :=
  ⟨by simpa using honest, made.resolve_left honest⟩

theorem Trusted.share {a : Vote} (ha : net.Backed w a) (hb : net.Backed w b) :
    ∃ i, net.honest i = true ∧ .applied a.decoded ∈ (w i).trace ∧
      .applied b.decoded ∈ (w i).trace := by
  obtain ⟨i, -, ma, mb, honest⟩ := Quorum.quorums_share ha hb (trusted.large exact_)
  have entered := applied_of_made ma honest
  exact ⟨i, entered.1, entered.2, (applied_of_made mb honest).2⟩

omit trusted exact_ in
theorem Upholds.log (h : net.Upholds w) (honest : net.honest i = true)
    (applied : .applied b ∈ (w i).trace) : b ∈ (w i).view.log := by
  obtain ⟨rest, v, ballots, log, trace⟩ := (reachable_ballots (h.node i honest)).kept
  rw [← trace] at applied
  have mem := Ballots.mem_log_of_durable (ballots.applied_durable applied)
  have same : v.voteLog = (w i).view.voteLog := log
  rwa [View.log_eq same] at mem

theorem Upholds.sound (h : net.Upholds w) (i : Nat) : Sound (net.cfg i) (net.Backed w) where
  skip b hb kind := by
    have decoded : b.decoded = (skipVote b.slot).decoded := by
      unfold Vote.decoded
      rw [kind]
      rfl
    unfold Network.Backed Config.Backed at hb ⊢
    rw [← decoded]
    exact hb
  finalized id hb := by
    obtain ⟨j, honest, applied, -⟩ := trusted.share exact_ hb hb
    exact (h.past j honest).finalized _ (h.log honest applied) rfl
  notarized id hb := by
    obtain ⟨j, honest, applied, -⟩ := trusted.share exact_ hb hb
    exact onChain_cfg.mpr
      (onChain_cfg.mp ((h.past j honest).notarized _ (h.log honest applied) rfl))

end

/-! ## One node takes a step -/

theorem backed_of_genuine {cert : Certificate} (genuine : net.GenuineCertificate w cert)
    (valid : (net.cfg i).verifyCertificate cert = .ok ()) : net.Backed w cert.vote :=
  (net.cfg i).backed_of_payload ((net.cfg i).verifyCertificate_payload valid)
    fun s hs verified => genuine s hs verified

theorem made_here {j : Nat}
    (made : (w i).view.Made (net.cfg i) (net.Made w) j b) : net.Made w j b := by
  rcases made with made | ⟨own, applied⟩
  · exact made
  · cases own
    exact .inr applied

theorem granted (unforged : net.Unforged w input) (ballots : Ballots (net.cfg i) [] (w i).view)
    (upheld : Upheld (net.cfg i) (net.Made w) (w i).view) :
    Counted.Granted (net.cfg i) (net.Made w) ((w i).grants input) := by
  have nothing : Counted.Granted (net.cfg i) (net.Made w) Ctx.nothing :=
    ⟨fun _ h => h.elim, fun _ h => h.elim, fun _ h => h.elim⟩
  cases input with
  | message src from_ m =>
    obtain ⟨votes, certs⟩ := unforged src from_ m rfl
    refine { nothing with arrived := fun p hp => ?_, received := fun c hc valid => ?_ }
    · have decoded : p.vote.decoded = p.vote := by
        unfold Engine.grants Message.votes at hp
        dsimp only at hp
        split at hp
        · rw [hp.2.1, Vote.decoded_decoded]
        · exact hp.elim
      refine ⟨decoded, fun valid => ?_⟩
      have made := votes p hp valid
      rwa [decoded] at made
    · exact backed_of_genuine (certs c hc) valid
  | voteSaved v ok =>
    cases ok with
    | false => exact nothing
    | true =>
      refine { nothing with acked := fun b hb => ?_ }
      obtain ⟨rfl, saving⟩ := hb
      exact upheld.counted.decoded _ (ballots.saves _ saving)
  | certSaved cert res => exact { nothing with }
  | _ => exact nothing

theorem answered_backed (upheld : Upheld (net.cfg i) (net.Made w) (w i).view) (c : Certificate)
    (source : ((w i).grants input).answered c ∨ ((w i).grants input).replayed c) :
    net.Backed w c.vote := by
  cases input with
  | certSaved cert res =>
    obtain ⟨rfl, saving, -⟩ := source.resolve_right fun h => h
    obtain ⟨r, hr, same⟩ := mem_map.mp (upheld.counted.saves _ saving)
    have backed := upheld.counted.journaled r hr
    rw [same] at backed
    exact Config.Backed.mono backed fun j => made_here
  | voteSaved v ok => cases ok <;> rcases source with h | h <;> exact h.elim
  | _ => rcases source with h | h <;> exact h.elim

theorem step_upheld (t : Time) (unforged : net.Unforged w input)
    (sound : Sound (net.cfg i) (net.Backed w)) (ballots : Ballots (net.cfg i) [] (w i).view)
    (upheld : Upheld (net.cfg i) (net.Made w) (w i).view) :
    Upheld (net.cfg i) (net.Made w) ((w i).step (net.cfg i) t input).view :=
  (upheld.marked ((w i).answered_marked input)).moves sound (granted unforged ballots upheld)
    (answered_backed upheld) (Engine.step_refines _ t input)

/-- `Start` on a journal whose certificates verify; one it refuses leaves the node down. -/
theorem start_upheld {made : Nat → Vote → Prop} (params : Params) (clock : Time)
    {bs : BootstrapState} {v : View} (past : Past (net.cfg i) (net.base.Backed made) v)
    (sound : Sound (net.cfg i) (net.base.Backed made)) (kept : VotesKept v.voteLog bs)
    (genuine : ∀ c ∈ bs.certificates, (net.cfg i).verifyCertificate c = .ok () →
      net.base.Backed made c.vote) :
    Past (net.cfg i) (net.base.Backed made)
        (Engine.start (net.cfg i) params clock bs v.trace).1.view ∧
      ((Engine.start (net.cfg i) params clock bs v.trace).1.started = true →
        Upheld (net.cfg i) made (Engine.start (net.cfg i) params clock bs v.trace).1.view) := by
  have kept_log {b : Vote} (hb : b ∈ bs.ourVotes) : b ∈ v.log := kept.ordered.subset hb
  rcases Engine.start_refines params clock bs v.trace with refused | ⟨valid, moves⟩
  · rw [refused]
    have old {b : Vote} (hb : b ∈ (Engine.new params clock bs v.trace).view.log) : b ∈ v.log := by
      obtain ⟨r, hr, rfl⟩ := mem_map.mp hb
      obtain ⟨c, hc, rfl⟩ := mem_map.mp hr
      exact kept_log hc
    exact ⟨{ past with
      decoded := fun b hb => past.decoded b (old hb)
      finalized := fun b hb => past.finalized b (old hb)
      notarized := fun b hb => past.notarized b (old hb) }, fun h => by cases h⟩
  · have certs (c : Certificate) (hc : c ∈ bs.certificates) : net.base.Backed made c.vote :=
      genuine c hc ((net.cfg i).validateBootstrap_ok.mp valid c hc)
    have recovered : Upheld (net.cfg i) made (View.recovered (net.cfg i) bs v.trace) :=
      .recovered past rfl kept certs
    have granted : Counted.Granted (net.cfg i) made (Ctx.starts bs) :=
      ⟨fun b hb => past.decoded b (kept_log hb), fun _ h => h.elim, fun _ h => h.elim⟩
    have upheld := recovered.moves sound granted
      (fun c hc => certs c (hc.resolve_left fun h => h)) moves
    exact ⟨upheld.past, fun _ => upheld⟩

/-! ## All reachable worlds -/

theorem made_update (grown : (w i).trace <:+ e.trace) (j : Nat) (b : Vote)
    (made : net.Made w j b) : net.Made (Function.update w i e) j b := by
  refine made.imp_right fun applied => ?_
  by_cases hj : j = i
  · subst hj
    rw [update_self]
    exact grown.subset applied
  · rw [update_of_ne hj]
    exact applied

theorem Upholds.update (h : net.Upholds w)
    (node : Simplex.Reachable (net.cfg i) (voteKeeping (net.cfg i)) e)
    (grown : (w i).trace <:+ e.trace) (past : Past (net.cfg i) (net.Backed w) e.view)
    (running : e.started = true → Upheld (net.cfg i) (net.Made w) e.view) :
    net.Upholds (Function.update w i e) := by
  have more (j : Nat) (b : Vote) (made : net.Made w j b) : net.Made (Function.update w i e) j b :=
    made_update grown j b made
  refine ⟨fun j hj => ?_, fun j hj => ?_, fun j hj started => ?_⟩
  · by_cases same : j = i
    · subst same
      rw [update_self]
      exact node
    · rw [update_of_ne same]
      exact h.node j hj
  · by_cases same : j = i
    · subst same
      rw [update_self]
      exact past.mono fun b hb => hb.mono more
    · rw [update_of_ne same]
      exact (h.past j hj).mono fun b hb => hb.mono more
  · by_cases same : j = i
    · subst same
      rw [update_self] at started ⊢
      refine (running started).mono fun k b made => ?_
      rcases made with made | ⟨own, applied⟩
      · exact more k b made
      · cases own
        exact .inr (by rw [update_self]; exact applied)
    · rw [update_of_ne same] at started ⊢
      exact (h.running j hj started).mono fun k b made => more k b (made_here made)

theorem own_key_safe (h : net.Upholds w) (honest : net.honest i = true)
    (unforged : net.Unforged w input) : Engine.OwnKeySafe (net.cfg i) (w i) input := by
  intro src from_ m p hm votes own valid
  cases own
  have made := (unforged src from_ m hm).1 p votes valid
  have decoded : p.vote.decoded = p.vote := by
    unfold Message.votes at votes
    split at votes
    · rw [votes.2.1, Vote.decoded_decoded]
    · exact votes.elim
  rw [decoded] at made
  obtain ⟨rest, v, ballots, -, trace⟩ := (reachable_ballots (h.node _ honest)).kept
  have applied := (applied_of_made made (by simp [honest])).2
  rw [← trace] at applied ⊢
  exact ballots.applied _ applied

theorem start_trace (cfg : Config) (params : Params) (clock : Time) (bs : BootstrapState)
    (trace : List Event) : trace <:+ (Engine.start cfg params clock bs trace).1.trace := by
  rcases Engine.start_refines params clock bs trace with refused | ⟨-, moves⟩
  · rw [refused]
    exact suffix_refl _
  · exact moves.grows.trace

theorem step_trace (cfg : Config) (e : Engine) (t : Time) (input : Input) :
    e.trace <:+ (e.step cfg t input).trace := by
  have marked : (e.answered input).view.trace = e.view.trace := by
    rw [(e.answered_marked input).same]
  have moves : Refines cfg (e.grants input) (e.answered input) (e.step cfg t input) :=
    Engine.step_refines e t input
  have grown := (Moves.grows moves).trace
  rwa [marked] at grown

section

variable (trusted : net.Trusted) (exact_ : totalWeight net.base.validators < 2 ^ 64)
include trusted exact_

theorem Trusted.unbacked : ¬ net.base.Backed (fun i _ => net.honest i = false) b := by
  intro backed
  obtain ⟨i, -, faulty, -, honest⟩ := Quorum.quorums_share backed backed (trusted.large exact_)
  exact honest faulty

theorem Upholds.boot (params : Nat → Params) (clock : Nat → Time) :
    net.Upholds fun i => (Engine.start (net.cfg i) (params i) (clock i) ⟨0, [], []⟩ []).1 := by
  have none_backed {b : Vote} := trusted.unbacked exact_ (b := b)
  have sound (i : Nat) :
      Sound (net.cfg i) (net.base.Backed fun i _ => net.honest i = false) :=
    ⟨fun _ hb => (none_backed hb).elim, fun _ hb => (none_backed hb).elim,
      fun _ hb => (none_backed hb).elim⟩
  have past (i : Nat) : Past (net.cfg i) (net.base.Backed fun i _ => net.honest i = false)
      (View.first (net.cfg i)) := by
    constructor <;> simp [View.log, View.recovered]
  have kept (i : Nat) : VotesKept (View.first (net.cfg i)).voteLog ⟨0, [], []⟩ :=
    ⟨List.Sublist.refl _, by simp [View.recovered]⟩
  have started (i : Nat) :=
    start_upheld (params i) (clock i) (past i) (sound i) (kept i) (by simp)
  refine ⟨fun i _ => .boot (params i) (clock i), fun i _ => ?_, fun i _ running => ?_⟩
  · exact (started i).1.mono fun b hb => (none_backed hb).elim
  · refine ((started i).2 running).mono fun j b made => ?_
    rcases made with faulty | ⟨own, applied⟩
    · exact .inl faulty
    · cases own
      exact .inr applied

theorem reachable_upholds (h : net.Reachable w) : net.Upholds w := by
  induction h with
  | boot params clock => exact .boot trusted exact_ params clock
  | step i t _ honest started unforged ih =>
    have safe := own_key_safe ih honest unforged
    have ballots := (reachable_ballots (ih.node i honest)).running started
    have upheld := step_upheld t unforged (ih.sound trusted exact_ i) ballots
      (ih.running i honest started)
    exact ih.update (.step t (ih.node i honest) started safe) (step_trace _ _ t _) upheld.past
      fun _ => upheld
  | restart i params clock _ honest kept genuine ih =>
    obtain ⟨past, running⟩ := start_upheld params clock (ih.past i honest)
      (ih.sound trusted exact_ i) kept fun c hc valid => backed_of_genuine (genuine c hc) valid
    exact ih.update (.restart params clock (ih.node i honest) kept) (start_trace ..) past running

/-! ## Agreement -/

theorem Upholds.exclusive (h : net.Upholds w) :
    Chain.Exclusive CandidateID.height (evidence (net.Backed w)) where
  notarized a ha := (h.sound trusted exact_ 0).finalized a ha
  unique a b ha hb same := by
    obtain ⟨i, honest, finalized, notarized⟩ := trusted.share exact_ ha hb
    obtain ⟨rest, v, ballots, -, trace⟩ := (reachable_ballots (h.node i honest)).kept
    rw [← trace] at finalized notarized
    exact ballots.clean _ _ notarized
      (Ballots.mem_log_of_durable (ballots.applied_durable finalized))
      (UInt32.toNat_inj.mp same) rfl rfl
  unskipped a ha skipped := by
    obtain ⟨s, same, hs⟩ := skipped
    obtain ⟨i, honest, finalized, skip⟩ := trusted.share exact_ ha hs
    obtain ⟨rest, v, ballots, -, trace⟩ := (reachable_ballots (h.node i honest)).kept
    rw [← trace] at finalized skip
    exact ballots.finalize_not_skip
      (Ballots.mem_log_of_durable (ballots.applied_durable finalized))
      (Ballots.mem_log_of_durable (ballots.applied_durable skip))
      (UInt32.toNat_inj.mp same).symm rfl rfl

theorem Upholds.ordered_of_finalized (h : net.Upholds w) {a : CandidateID}
    (ha : net.Backed w (finalizeVote a)) : net.base.Ordered (net.Backed w) a := by
  have exclusive := h.exclusive trusted exact_
  have sound := h.sound trusted exact_ 0
  rcases onChain_cfg.mp (sound.notarized a (sound.finalized a ha)) with ordered | above
  · exact ordered
  · obtain ⟨top, slot, final, ordered⟩ := above
    have le : a.height ≤ top.height := by
      have small := a.slot.toNat_lt
      unfold CandidateID.height
      rw [slot]
      change a.slot.toNat ≤ 4294967295
      omega
    rcases Nat.lt_or_eq_of_le le with lt | same
    · exact ordered.of_finalized exclusive ha lt
    · rw [exclusive.unique a top ha (exclusive.notarized top final) same]
      exact ordered

omit trusted exact_ in
theorem Upholds.stored_backed (h : net.Upholds w) {c : Certificate} {k : VoteKind}
    (honest : net.honest i = true) (stored : .certStored c ∈ (w i).trace)
    (kind : c.vote.kind = k) : net.Backed w ⟨k, c.vote.id⟩ := by
  have backed := (h.past i honest).stored c stored
  rwa [show c.vote = ⟨k, c.vote.id⟩ from congrArg (Vote.mk · c.vote.id) kind] at backed

/-- No slot has two notarized candidates, whichever honest engines hold their certificates. -/
theorem notarized_candidates_unique (h : net.Reachable w) {j : Nat} (hi : net.honest i = true)
    (hj : net.honest j = true) {ca cb : Certificate} (stored : .certStored ca ∈ (w i).trace)
    (ka : ca.vote.kind = .notarize) (stored' : .certStored cb ∈ (w j).trace)
    (kb : cb.vote.kind = .notarize) (same : ca.vote.slot = cb.vote.slot) :
    ca.vote.id = cb.vote.id := by
  have upholds := reachable_upholds trusted exact_ h
  obtain ⟨k, honest, first, second⟩ := trusted.share exact_
    (upholds.stored_backed hi stored ka) (upholds.stored_backed hj stored' kb)
  obtain ⟨rest, v, ballots, -, trace⟩ := (reachable_ballots (upholds.node k honest)).kept
  rw [← trace] at first second
  exact (ballots.notarize_unique (Ballots.mem_log_of_durable (ballots.applied_durable first))
    (Ballots.mem_log_of_durable (ballots.applied_durable second)) same rfl rfl :)

/-- A finalized candidate leaves no slot below it open: parent links lead from it over notarized
candidates to one without parent, and a quorum skipped every slot they jump over. -/
theorem finalized_chain_complete (h : net.Reachable w) (honest : net.honest i = true)
    {c : Certificate} (stored : .certStored c ∈ (w i).trace) (kind : c.vote.kind = .finalize) :
    net.base.Ordered (net.Backed w) c.vote.id := by
  have upholds := reachable_upholds trusted exact_ h
  exact upholds.ordered_of_finalized trusted exact_ (upholds.stored_backed honest stored kind)

end

/-- Agreement: finalized candidates are on one chain of parent links, whichever honest engines
accepted their certificates, and no certificate against a finalized candidate verifies. -/
theorem finalized_candidates_agree (trusted : net.Trusted)
    (exact_ : totalWeight net.base.validators < 2 ^ 64) (h : net.Reachable w) {i j : Nat}
    (hi : net.honest i = true) (hj : net.honest j = true) {ca cb : Certificate}
    (accepted : .certStored ca ∈ (w i).trace) (ka : ca.vote.kind = .finalize)
    (accepted' : .certStored cb ∈ (w j).trace) (kb : cb.vote.kind = .finalize)
    (le : ca.vote.slot ≤ cb.vote.slot) :
    (ca.vote.id = cb.vote.id ∨ Chain.Ancestor net.base.Link ca.vote.id cb.vote.id) ∧
      ∀ cert, net.GenuineCertificate w cert → cert.vote.slot = ca.vote.slot →
        (cert.vote.kind = .skip ∨ (cert.vote.kind = .notarize ∧ cert.vote.id ≠ ca.vote.id)) →
        net.base.verifyCertificatePayload cert ≠ .ok () := by
  have upholds := reachable_upholds trusted exact_ h
  have exclusive := upholds.exclusive trusted exact_
  have vote {c : Certificate} {k : VoteKind} (kind : c.vote.kind = k) : c.vote = ⟨k, c.vote.id⟩ :=
    congrArg (Vote.mk · c.vote.id) kind
  have final {c : Certificate} {i : Nat} (honest : net.honest i = true)
      (stored : .certStored c ∈ (w i).trace) (kind : c.vote.kind = .finalize) :
      net.Backed w (finalizeVote c.vote.id) := by
    have backed := (upholds.past i honest).stored c stored
    rwa [vote kind] at backed
  have finalA := final hi accepted ka
  have finalB := final hj accepted' kb
  refine ⟨?_, fun cert genuine same against passed => ?_⟩
  · exact (upholds.ordered_of_finalized trusted exact_ finalB).agreement exclusive finalA finalB
      (UInt32.le_iff_toNat_le.mp le)
  · have backed : net.Backed w cert.vote := net.base.backed_of_payload passed genuine
    rcases against with skip | ⟨notarize, other⟩
    · have skipped := (upholds.sound trusted exact_ 0).skip _ backed skip
      exact exclusive.unskipped _ finalA ⟨_, congrArg UInt32.toNat same, skipped⟩
    · rw [vote notarize] at backed
      exact other (exclusive.unique _ _ finalA backed (congrArg UInt32.toNat same.symm)).symm

/-- One node serves inputs in a row. -/
def serve (net : Network) (i : Nat) (e : Engine) (inputs : List (Time × Input)) : Engine :=
  inputs.foldl (fun e x => e.step (net.cfg i) x.1 x.2) e

theorem Reachable.serve (h : net.Reachable w) (honest : net.honest i = true)
    (started : (w i).started = true) (inputs : List (Time × Input))
    (quiet : inputs.all fun x => Input.isLocal x.2) :
    net.Reachable (Function.update w i (net.serve i (w i) inputs)) := by
  induction inputs generalizing w with
  | nil =>
    rw [show net.serve i (w i) [] = w i from rfl, update_eq_self]
    exact h
  | cons x rest ih =>
    rw [all_cons, Bool.and_eq_true] at quiet
    have unforged : net.Unforged w x.2 := by
      intro src from_ m e
      rw [e] at quiet
      cases quiet.1
    have next := h.step i x.1 honest started unforged
    have served := ih next (by rw [update_self, Engine.step_started, started]) quiet.2
    rw [update_self, update_idem] at served
    exact served

/-- Two honest validators with the given weights; the first one leads every slot. -/
def pair (a b : UInt64) : Network where
  base := { soloConfig with validators := [⟨List.replicate 32 0, a⟩, ⟨List.replicate 32 1, b⟩] }
  sign _ _ _ := some (List.replicate 64 0)
  honest _ := true

def pairBoot (a b : UInt64) : World :=
  fun i => (Engine.start ((pair a b).cfg i) soloParams 0 ⟨0, [], []⟩ []).1

/-- The first validator carries a candidate from submission to its finalization, alone. -/
def finalizesAlone (c : Candidate) : List (Time × Input) :=
  [.submitCandidate c, .storeDone c.id true, .validateDone c.id true,
    .voteSaved (notarizeVote c.id) true, .certSaved (soloCert (notarizeVote c.id)) .ok,
    .voteSaved (finalizeVote c.id) true,
    .certSaved (soloCert (finalizeVote c.id)) .ok].map fun input => (0, input)

theorem pair_trusted {a b total : UInt64}
    (admitted : totalValidatorWeight (pair a b).base.validators = .ok total) (positive : 0 < a) :
    (pair a b).Trusted := by
  refine ⟨⟨total, admitted⟩, ?_⟩
  have nobody : Quorum.weight (pair a b).base.roster (pair a b).base.power
      {i | (pair a b).honest i = false} = 0 := by
    simp [Quorum.weight, pair]
  rw [nobody]
  have := UInt64.lt_iff_toNat_lt.mp positive
  change 3 * 0 < a.toNat + (b.toNat + 0)
  omega

/-- Weights 5 and 1: the first validator alone is a quorum and finalizes two slots. -/
def pairFinal : World :=
  Function.update (pairBoot 5 1) 0 ((pair 5 1).serve 0 (pairBoot 5 1 0)
    (finalizesAlone (soloCandidate 0 genesis) ++
      finalizesAlone (soloCandidate 1 (parent ⟨0, 0⟩))))

theorem pairFinal_reachable : (pair 5 1).Trusted ∧ (pair 5 1).Reachable pairFinal := by
  refine ⟨@pair_trusted 5 1 6 rfl (by decide), ?_⟩
  exact (Reachable.boot (fun _ => soloParams) fun _ => 0).serve rfl (by decide +kernel) _
    (by decide +kernel)

theorem finalized_candidates_agree_pair :
    (⟨0, 0⟩ : CandidateID) = ⟨1, 0⟩ ∨ Chain.Ancestor (pair 5 1).base.Link ⟨0, 0⟩ ⟨1, 0⟩ := by
  obtain ⟨trusted, reached⟩ := pairFinal_reachable
  have first : .certStored (soloCert (finalizeVote ⟨0, 0⟩)) ∈ (pairFinal 0).trace :=
    mem_of_stores (by decide +kernel)
  have second : .certStored (soloCert (finalizeVote ⟨1, 0⟩)) ∈ (pairFinal 0).trace :=
    mem_of_stores (by decide +kernel)
  exact (finalized_candidates_agree trusted (by decide) reached rfl rfl first rfl second rfl
    (by decide)).1

/-- The second validator is sent the notarization of slot 1. -/
def pairHeard : World :=
  Function.update pairFinal 1 ((pairFinal 1).step ((pair 5 1).cfg 1) 0
    (.message 0 (some 0) (.certificate (soloCert (notarizeVote ⟨1, 0⟩)))))

/-- Then both have stored it. -/
def pairNotarized : World :=
  Function.update pairHeard 1 ((pair 5 1).serve 1 (pairHeard 1)
    [(0, .certSaved (soloCert (notarizeVote ⟨1, 0⟩)) .ok)])

/-- What the second validator stored for slot 1 is what the first one did. -/
theorem notarized_candidates_unique_pair :
    .certStored (soloCert (notarizeVote ⟨1, 0⟩)) ∈ (pairNotarized 1).trace ∧
      ∀ c, .certStored c ∈ (pairNotarized 1).trace → c.vote.kind = .notarize →
        c.vote.slot = 1 → c.vote.id = ⟨1, 0⟩ := by
  obtain ⟨trusted, reached⟩ := pairFinal_reachable
  have unforged : (pair 5 1).Unforged pairFinal
      (.message 0 (some 0) (.certificate (soloCert (notarizeVote ⟨1, 0⟩)))) := by
    rintro src from_ m ⟨⟩
    refine ⟨fun p absent => absent.elim, ?_⟩
    rintro c ⟨⟩ s hs -
    rw [mem_singleton.mp hs]
    exact .inr (mem_of_enters (by decide +kernel))
  have heard : (pair 5 1).Reachable pairHeard :=
    reached.step 1 0 rfl (by decide +kernel) unforged
  have notarized : (pair 5 1).Reachable pairNotarized :=
    heard.serve rfl (by decide +kernel) _ (by decide +kernel)
  have first : .certStored (soloCert (notarizeVote ⟨1, 0⟩)) ∈ (pairNotarized 0).trace :=
    mem_of_stores (by decide +kernel)
  refine ⟨mem_of_stores (by decide +kernel), fun c stored kind slot => ?_⟩
  exact (notarized_candidates_unique trusted (by decide) notarized rfl rfl first rfl stored kind
    slot.symm).symm

theorem finalized_chain_complete_pair :
    (pair 5 1).base.Ordered ((pair 5 1).Backed pairFinal) ⟨1, 0⟩ := by
  have stored : .certStored (soloCert (finalizeVote ⟨1, 0⟩)) ∈ (pairFinal 0).trace :=
    mem_of_stores (by decide +kernel)
  obtain ⟨trusted, reached⟩ := pairFinal_reachable
  exact finalized_chain_complete trusted (by decide) reached rfl stored rfl

/-- Two validators whose weights sum up to 2^64 + 3, which `uint64` counts as 3. -/
def wrapped : Network := pair 5 18446744073709551614

/-- The first validator finalizes slot 0; the second one hears nothing and skips it. -/
def wrappedFinal : World :=
  let boot := pairBoot 5 18446744073709551614
  let w := Function.update boot 0
    (wrapped.serve 0 (boot 0) (finalizesAlone (soloCandidate 0 genesis)))
  Function.update w 1
    (wrapped.serve 1 (w 1) [(1, .advance 0), (1, .voteSaved (skipVote 0) true)])

/-- With a wrapped total each of the two passes for a quorum: slot 0 is finalized, and a genuine
skip certificate for it verifies. -/
theorem wrapped_total_breaks_agreement :
    wrapped.Trusted ∧ wrapped.Reachable wrappedFinal ∧
      .certStored (soloCert (finalizeVote ⟨0, 0⟩)) ∈ (wrappedFinal 0).trace ∧
      wrapped.GenuineCertificate wrappedFinal ⟨skipVote 0, [⟨1, List.replicate 64 0⟩]⟩ ∧
      wrapped.base.verifyCertificatePayload ⟨skipVote 0, [⟨1, List.replicate 64 0⟩]⟩ = .ok () := by
  have admitted : totalValidatorWeight wrapped.base.validators = .ok 3 := rfl
  refine ⟨pair_trusted admitted (by decide), ?_, mem_of_stores (by decide +kernel), ?_, rfl⟩
  · refine Reachable.serve (Reachable.serve (.boot (fun _ => soloParams) fun _ => 0) rfl ?_ _ ?_)
      rfl ?_ _ ?_ <;> decide +kernel
  · intro s hs _
    rw [mem_singleton.mp hs]
    exact .inr (mem_of_enters (by decide +kernel))

end Network

end Gton.Simplex
