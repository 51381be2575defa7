import Gton.Lib.Chain
import Gton.Simplex.Counting
import Gton.Simplex.Node
import Gton.Simplex.Pipeline
import Gton.Simplex.SkipRuns

/-!
# Decisions rest on certificates

Over one input, everything a node decides by rests on certificates for votes in a fixed set `B`:
what it finalizes, what it votes to finalize, and the parents it settles candidates on.
-/

namespace Gton.Simplex

structure Certified (B : Vote → Prop) (v : View) : Prop where
  pooled : ∀ s k c, v.certs s k = some c → B c.vote
  last : v.lastFinalized.defined = true → B (finalizeVote v.lastFinalized.id)
  stored : ∀ c, .certStored c ∈ v.trace → B c.vote
  queued : ∀ id, .voterNotarizationObserved id ∈ v.queue → B (notarizeVote id)
  seen : ∀ s id, v.voterHorizon ≤ s → (v.voter s).notarCert = some id → B (notarizeVote id)
  voted : ∀ b ∈ v.log, b.kind = .finalize → B (notarizeVote b.id)

namespace Certified

variable {cfg : Config} {ctx : Ctx} {B B' : Vote → Prop} {v w : View}

section

variable (h : Certified B v)
include h

theorem pooled_store {cert : Certificate} (hb : B cert.vote) (s : UInt32) (k : VoteKind)
    (c : Certificate) (hc : (v.storeCert cert).certs s k = some c) : B c.vote := by
  rw [View.certs_storeCert] at hc
  split at hc
  · cases hc
    exact hb
  · exact h.pooled s k c hc

section

variable (g : ∀ c, ctx.answered c ∨ ctx.replayed c → B c.vote) (m : Move cfg ctx v w) (s : UInt32)
  (k : VoteKind) (c : Certificate)
include g m s k c

theorem pooled_move (hc : w.certs s k = some c) : B c.vote := by
  rcases m.stores with same | ⟨cert, source, -, -, stored⟩
  · exact h.pooled s k c (same.certs ▸ hc)
  · cases stored with
    | final =>
      by_cases live : (v.finalizeCert cert).horizon ≤ s
      · exact h.pooled_store (g cert source) s k c (View.certs_finalizeCert live ▸ hc)
      · rw [show (v.finalizeCert cert).certs s = fun _ => none from
          if_pos (UInt32.not_le.mp live)] at hc
        cases hc
    | _ => exact h.pooled_store (g cert source) s k c hc

omit s k c in
theorem last_move (defined : w.lastFinalized.defined = true) :
    B (finalizeVote w.lastFinalized.id) := by
  rcases m.stores with same | ⟨cert, source, -, -, stored⟩
  · rw [same.lastFinalized] at defined ⊢
    exact h.last defined
  · cases stored with
    | final kind =>
      have vote : cert.vote = finalizeVote cert.vote.id := congrArg (Vote.mk · cert.vote.id) kind
      exact vote ▸ g cert source
    | _ => exact h.last defined

omit s k in
theorem stored_move (hc : .certStored c ∈ w.trace) : B c.vote := by
  rcases m.stores with same | ⟨cert, source, -, -, stored⟩
  · exact h.stored c (same.trace c hc)
  · have trace : w.trace = .certStored cert :: v.trace := by cases stored <;> rfl
    rw [trace] at hc
    rcases List.mem_cons.mp hc with e | old
    · cases e
      exact g c source
    · exact h.stored c old

omit g s k c in
theorem voted_move (b : Vote) (hb : b ∈ w.log) (kind : b.kind = .finalize) :
    B (notarizeVote b.id) := by
  rcases m.casts with ⟨log, -⟩ | ⟨s, c, slot, rule, live, -, rfl⟩
  · exact h.voted b (View.log_eq log ▸ hb) kind
  · rcases View.mem_log_journalVote hb with hb | rfl
    · exact h.voted b hb kind
    · cases rule with
      | finalize _ _ _ _ cert => exact h.seen s _ live cert
      | notarize => cases kind
      | skip => cases kind

omit s k c in
theorem move : Certified B w where
  pooled := h.pooled_move g m
  last := h.last_move g m
  stored := h.stored_move g m
  queued id hq := by
    rcases m.notarizes hq with old | ⟨cert, source, vote, -⟩
    · exact h.queued id old
    · exact vote ▸ g cert source
  seen s id live hn := by
    rcases m.sees live hn with old | ⟨-, queued⟩
    · exact h.seen s id (UInt32.le_trans m.grows.voterHorizon live) old
    · exact h.queued id queued
  voted := h.voted_move m

end

theorem mono (more : ∀ b, B b → B' b) : Certified B' v :=
  ⟨fun s k c hc => more _ (h.pooled s k c hc), fun hd => more _ (h.last hd),
    fun c hc => more _ (h.stored c hc), fun id hq => more _ (h.queued id hq),
    fun s id live hn => more _ (h.seen s id live hn), fun b hb hk => more _ (h.voted b hb hk)⟩

end

end Certified

/-! ## Chains of candidates -/

def CandidateID.height (id : CandidateID) : Nat := id.slot.toNat

/-- A parent link: some admitted candidate with this id has the parent. -/
def Config.Link (cfg : Config) (id : CandidateID) : Option CandidateID → Prop
  | none => ∃ c, cfg.Admitted c ∧ c.id = id ∧ c.parent.defined = false
  | some p => ∃ c, cfg.Admitted c ∧ c.id = id ∧ c.parent = parent p

/-- The votes of `B` as evidence on candidates and slots. -/
def evidence (B : Vote → Prop) : Chain.Evidence CandidateID where
  notarized id := B (notarizeVote id)
  finalized id := B (finalizeVote id)
  skipped j := ∃ s : UInt32, s.toNat = j ∧ B (skipVote s)

abbrev Config.Ordered (cfg : Config) (B : Vote → Prop) : CandidateID → Prop :=
  Chain.Ordered CandidateID.height cfg.Link (evidence B)

/-- The candidate's chain is in order, or one that ends in the last slot is finalized: from then
on the pool no longer sees which slots were skipped. -/
def Config.OnChain (cfg : Config) (B : Vote → Prop) (id : CandidateID) : Prop :=
  cfg.Ordered B id ∨ ∃ top, top.slot = lastSlot ∧ B (finalizeVote top) ∧ cfg.Ordered B top

variable {B' B : Vote → Prop} {id : CandidateID} {cfg : Config}

theorem Config.Ordered.mono (h : cfg.Ordered B id) (more : ∀ b, B b → B' b) : cfg.Ordered B' id :=
  Chain.Ordered.mono h (fun _ => more _) fun _ => Exists.imp fun _ => And.imp_right (more _)

theorem Config.OnChain.mono (h : cfg.OnChain B id) (more : ∀ b, B b → B' b) :
    cfg.OnChain B' id := by
  rcases h with h | ⟨top, slot, final, h⟩
  · exact .inl (Ordered.mono h more)
  · exact .inr ⟨top, slot, more _ final, Ordered.mono h more⟩

structure Chained (cfg : Config) (B : Vote → Prop) (v : View) : Prop where
  runs : Runs v
  pipeline : Pipeline (fun _ id => cfg.OnChain B id) cfg v
  voted : ∀ b ∈ v.log, b.kind = .notarize → cfg.OnChain B b.id

/-- What is to be known of `B`: a finalized candidate is notarized, a notarized one is on a
chain. -/
structure Sound (cfg : Config) (B : Vote → Prop) : Prop where
  skip : ∀ b, B b → b.kind = .skip → B (skipVote b.slot)
  finalized : ∀ id, B (finalizeVote id) → B (notarizeVote id)
  notarized : ∀ id, B (notarizeVote id) → cfg.OnChain B id

namespace Chained

variable {cfg : Config} {ctx : Ctx} {B B' : Vote → Prop} {v w : View}

theorem gap_slot {s t : UInt32} {j : Nat} (above : s.toNat < j) (below : j < t.toNat) :
    ∃ i : UInt32, i.toNat = j ∧ s + 1 ≤ i ∧ i < t := by
  have small : j < 2 ^ 32 := Nat.lt_trans below t.toNat_lt
  have eq : (UInt32.ofNat j).toNat = j := UInt32.toNat_ofNat_of_lt' small
  refine ⟨UInt32.ofNat j, eq, ?_, UInt32.lt_iff_toNat_lt.mpr (by rw [eq]; exact below)⟩
  have lt : s < UInt32.ofNat j := UInt32.lt_iff_toNat_lt.mpr (by rw [eq]; exact above)
  grind

section

variable (h : Chained cfg B v) (certified : Certified B v) (sound : Sound cfg B) {c : Candidate}
  {pool : Pool}

include h certified sound

omit h in
/-- A candidate whose parent wait is settled extends the chain of its parent. -/
theorem extends_parent (admitted : cfg.Admitted c)
    (same : v.Matches pool) (settles : pool.Settles c) : cfg.OnChain B c.id := by
  have skipped (j : UInt32) (le : c.parent.nextSlot ≤ j) (lt : j < c.id.slot) :
      B (skipVote j) := by
    obtain ⟨cert, found, kind, rfl⟩ := settles.skipped j le lt
    rw [same.certs] at found
    exact sound.skip _ (certified.pooled _ _ _ found) kind
  cases defined : c.parent.defined with
  | false =>
    have next : c.parent.nextSlot = 0 := by simp [ParentID.nextSlot, defined]
    refine .inl (.root ⟨c, admitted, rfl, defined⟩ fun j lt => ?_)
    have small : j < 2 ^ 32 := Nat.lt_trans lt c.id.slot.toNat_lt
    have eq : (UInt32.ofNat j).toNat = j := UInt32.toNat_ofNat_of_lt' small
    refine ⟨UInt32.ofNat j, eq, skipped _ ?_ (UInt32.lt_iff_toNat_lt.mpr (by rw [eq]; exact lt))⟩
    rw [next]
    exact UInt32.zero_le
  | true =>
    have link : cfg.Link c.id (some c.parent.id) :=
      ⟨c, admitted, rfl, congrArg (ParentID.mk · c.parent.id) defined⟩
    have next : c.parent.nextSlot = c.parent.id.slot + 1 := by simp [ParentID.nextSlot, defined]
    have notarized : B (notarizeVote c.parent.id) := by
      rcases settles.parent with final | ⟨-, cert, found, vote⟩
      · rw [same.lastFinalized] at final
        have last := certified.last (by rw [final]; exact defined)
        rw [final] at last
        exact sound.finalized _ last
      · rw [same.certs] at found
        exact vote ▸ certified.pooled _ _ _ found
    refine (sound.notarized _ notarized).imp_left fun ordered => ?_
    refine .step link (UInt32.lt_iff_toNat_lt.mp (admitted.shape defined)) notarized
      (fun j above below => ?_) ordered
    obtain ⟨i, rfl, le, lt⟩ := gap_slot above below
    exact ⟨i, rfl, skipped i (next ▸ le) lt⟩

theorem settle (ok : v.failed = false) (waiting : c ∈ v.waits)
    (same : v.Matches pool) (settled : pool.evaluateParentWait c = .done .ok) :
    cfg.OnChain B c.id := by
  have admitted := h.pipeline.admitted c (h.pipeline.waiting c waiting)
  cases final : v.certs lastSlot .finalize with
  | none =>
    exact extends_parent certified sound admitted same
      (h.runs.settles same ok final settled)
  | some cert =>
    obtain ⟨slot, kind⟩ := h.runs.keyed _ _ _ final
    have vote : cert.vote = finalizeVote cert.vote.id := congrArg (Vote.mk · cert.vote.id) kind
    have top : B (finalizeVote cert.vote.id) := vote ▸ certified.pooled _ _ _ final
    rcases sound.notarized _ (sound.finalized _ top) with ordered | above
    · exact .inr ⟨_, slot, top, ordered⟩
    · exact .inr above

omit certified sound in
theorem voted_move (m : Move cfg ctx v w) (b : Vote) (hb : b ∈ w.log) (kind : b.kind = .notarize) :
    cfg.OnChain B b.id := by
  rcases m.casts with ⟨log, -⟩ | ⟨s, c, slot, rule, live, ok, rfl⟩
  · exact h.voted b (View.log_eq log ▸ hb) kind
  · rcases View.mem_log_journalVote hb with hb | rfl
    · exact h.voted b hb kind
    · cases rule with
      | notarize here pending validated =>
        obtain ⟨c, hc, rfl⟩ := Option.map_eq_some_iff.mp pending
        exact (h.pipeline.slots s live).checked ok c hc (.inr validated)
      | finalize => cases kind
      | skip => cases kind

theorem move (m : Move cfg ctx v w) : Chained cfg B w where
  runs := h.runs.move m
  pipeline := h.pipeline.move m (fun _ ordered => ordered) fun ok _ _ waiting same settled =>
    h.settle certified sound ok waiting same settled
  voted := h.voted_move m

theorem moves (g : ∀ c, ctx.answered c ∨ ctx.replayed c → B c.vote) (m : Moves cfg ctx v w) :
    Chained cfg B w ∧ Certified B w := by
  induction m with
  | refl => exact ⟨h, certified⟩
  | tail _ m ih => exact ⟨ih.1.move ih.2 sound m, ih.2.move g m⟩

end

theorem mono (h : Chained cfg B v) (more : ∀ b, B b → B' b) : Chained cfg B' v where
  runs := h.runs
  pipeline := h.pipeline.imp fun _ placed => placed.mono more
  voted b hb kind := (h.voted b hb kind).mono more

end Chained

/-! ## One node -/

/-- What outlives a crash: the own votes and the history. -/
structure Past (cfg : Config) (B : Vote → Prop) (v : View) : Prop where
  decoded : ∀ b ∈ v.log, b.decoded = b
  admitted : ∀ c, .submitted c ∈ v.trace → cfg.Admitted c
  stored : ∀ c, .certStored c ∈ v.trace → B c.vote
  finalized : ∀ b ∈ v.log, b.kind = .finalize → B (notarizeVote b.id)
  notarized : ∀ b ∈ v.log, b.kind = .notarize → cfg.OnChain B b.id

/-- All of the invariants of a running node. -/
structure Upheld (cfg : Config) (made : Nat → Vote → Prop) (v : View) : Prop where
  counted : Counted cfg made v
  certified : Certified (cfg.Backed made) v
  chained : Chained cfg (cfg.Backed made) v

section

variable {cfg : Config} {made : Nat → Vote → Prop} {ctx : Ctx} {v w : View}

theorem Past.mono (h : Past cfg B v) (more : ∀ b, B b → B' b) : Past cfg B' v :=
  { h with
    stored := fun c hc => more _ (h.stored c hc)
    finalized := fun b hb kind => more _ (h.finalized b hb kind)
    notarized := fun b hb kind => (h.notarized b hb kind).mono more }

theorem Upheld.past (h : Upheld cfg made v) : Past cfg (cfg.Backed made) v :=
  ⟨h.counted.decoded, h.chained.pipeline.admitted, h.certified.stored, h.certified.voted,
    h.chained.voted⟩

theorem Upheld.moves (h : Upheld cfg made v) (sound : Sound cfg (cfg.Backed made))
    (g : Counted.Granted cfg made ctx)
    (certs : ∀ c, ctx.answered c ∨ ctx.replayed c → cfg.Backed made c.vote)
    (m : Moves cfg ctx v w) : Upheld cfg made w := by
  obtain ⟨chained, certified⟩ := h.chained.moves h.certified sound certs m
  exact ⟨h.counted.moves g m, certified, chained⟩

theorem Upheld.recovered {bs : BootstrapState} {trace : List Event}
    (past : Past cfg (cfg.Backed made) v) (history : v.trace = trace)
    (kept : VotesKept v.voteLog bs)
    (certs : ∀ c ∈ bs.certificates, cfg.Backed made c.vote) :
    Upheld cfg made (View.recovered cfg bs trace) := by
  have log : (View.recovered cfg bs trace).log = bs.ourVotes := by
    rw [View.log, View.recovered, List.map_map]
    exact List.map_id _
  have old {b : Vote} (hb : b ∈ (View.recovered cfg bs trace).log) : b ∈ v.log :=
    kept.ordered.subset (log ▸ hb)
  have unvoted (s : UInt32) (i : Nat) : (View.recovered cfg bs trace).votes s i = {} := rfl
  subst history
  refine ⟨?_, ?_, ?_⟩
  · exact
      { decoded := fun b hb => past.decoded b (old hb)
        inbox := by simp [View.recovered]
        direct := fun s i k p hp => by
          rw [unvoted, ValidatorVotes.byKind_empty] at hp
          cases hp
        counted := fun s b => Nat.zero_le _
        journaled := fun r hr => by
          obtain ⟨c, hc, rfl⟩ := List.mem_map.mp hr
          exact (certs c hc).mono fun _ => .inl
        saves := by simp [View.recovered] }
  · exact
      { pooled := by simp [View.recovered]
        last := by simp [View.recovered, genesis]
        stored := past.stored
        queued := by simp [View.recovered]
        seen := fun s id _ hn => by
          rw [show ((View.recovered cfg bs v.trace).voter s).notarCert = none from
            (BootstrapState.voter_idle.idle s).notarCert] at hn
          cases hn
        voted := fun b hb => past.finalized b (old hb) }
  · exact
      { runs := .empty rfl rfl
        pipeline := .recovered past.admitted
        voted := fun b hb => past.notarized b (old hb) }

theorem Upheld.marked (h : Upheld cfg made v) (m : Engine.Marked v w) : Upheld cfg made w := by
  have log := m.log
  have certs := m.certs
  have saves := m.certSaves
  have same := m.same
  rw [same] at log certs saves ⊢
  refine ⟨?_, ?_, ?_⟩
  · exact { h.counted with
      decoded := fun b hb => h.counted.decoded b (log ▸ hb)
      journaled := fun r hr => by
        obtain ⟨r', hr', eq⟩ := List.mem_map.mp (certs ▸ List.mem_map.mpr ⟨r, hr, rfl⟩)
        rw [← eq]
        exact h.counted.journaled r' hr'
      saves := fun save hs => by
        rw [certs]
        exact h.counted.saves save (saves hs) }
  · exact { h.certified with voted := fun b hb => h.certified.voted b (log ▸ hb) }
  · exact
      { runs := h.chained.runs.frame { SamePool.refl v with }
        pipeline := h.chained.pipeline.frame fun _ ordered => ordered
        voted := fun b hb => h.chained.voted b (log ▸ hb) }

theorem Upheld.mono {made' : Nat → Vote → Prop} (h : Upheld cfg made v)
    (more : ∀ i b, v.Made cfg made i b → made' i b) : Upheld cfg made' v := by
  have backed (b : Vote) (hb : cfg.Backed made b) : cfg.Backed made' b :=
    hb.mono fun i hi => more i _ (.inl hi)
  exact ⟨h.counted.mono fun i b hb => .inl (more i b hb), h.certified.mono backed,
    h.chained.mono backed⟩

end

end Gton.Simplex
