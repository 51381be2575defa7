import Gton.Simplex.Node
import Gton.Simplex.Pipeline

/-!
# What a validator signs

With a journal that also keeps acknowledged certificates, the votes a validator signs for one
slot never contradict each other. A finalize vote may survive a crash without its notarize vote:
then the certificate it rests on is replayed first and turns away every other candidate of the
slot. `Journal` promises this of own votes only; a lost certificate lets another one through.
-/

namespace Gton.Simplex

open List View

variable {w : View} {id : CandidateID} {cfg : Config} {todo : List Certificate}

namespace View

/-- A notarize certificate for `id` is durable, and in the pool while its slot is live. -/
structure Shows (v : View) (id : CandidateID) : Prop where
  durable : ∃ c, ⟨c, true⟩ ∈ v.certLog ∧ c.vote = notarizeVote id
  pooled : v.horizon ≤ id.slot → ∃ c, v.certs id.slot .notarize = some c ∧ c.vote.id = id

theorem Shows.grows {v : View} (h : v.Shows id) (g : Grows v w) : w.Shows id where
  durable := h.durable.imp fun _ hc => hc.imp_left (g.certLog.subset ·)
  pooled live := by
    obtain ⟨c, hc, hid⟩ := h.pooled (UInt32.le_trans g.horizon live)
    exact ⟨c, g.certs _ _ _ live hc, hid⟩

/-- A slot without a notarize vote can only get one that goes with its finalize votes. -/
def Unopposed (v : View) (id : CandidateID) : Prop :=
  v.voterHorizon ≤ id.slot → (v.voter id.slot).votedNotar = none →
    ∀ a ∈ v.log, a.kind = .finalize → a.slot = id.slot → a.id = id

end View

/-- `todo` are the journaled certificates that are not replayed yet. -/
structure Signing (cfg : Config) (todo : List Certificate) (v : View) : Prop where
  certified : ∀ a ∈ v.log, a.kind = .finalize →
    ∃ c, ⟨c, true⟩ ∈ v.certLog ∧ c.vote = notarizeVote a.id
  agree : ∀ a ∈ v.log, ∀ b ∈ v.log, a.kind = .finalize → b.kind = .notarize → a.slot = b.slot →
    a.id = b.id
  ownCerts : ∀ r ∈ v.certLog, ∀ s ∈ r.cert.signatures, cfg.localIndex = some s.validatorIndex →
    .sign r.cert.vote ∈ v.trace
  unconflicted : v.conflicted = false
  shown : ∀ a ∈ v.log, a.kind = .finalize → v.horizon ≤ a.slot →
    (∃ c, v.certs a.slot .notarize = some c ∧ c.vote.id = a.id) ∨
      ∃ c ∈ todo, c.vote = notarizeVote a.id
  known : ∀ r ∈ v.certLog, v.horizon ≤ r.cert.vote.slot →
    v.certs r.cert.vote.slot r.cert.vote.kind ≠ none ∨
      v.saving r.cert.vote.slot r.cert.vote.kind = true ∨ r.cert ∈ todo
  seen : ∀ s id, v.voterHorizon ≤ s → (v.voter s).notarCert = some id → id.slot = s ∧ v.Shows id
  queued : ∀ id, .voterNotarizationObserved id ∈ v.queue → v.Shows id
  records : ∀ i s k p, cfg.localIndex = some i → (v.votes s i).byKind k = some p →
    .sign p.vote ∈ v.trace ∧ p.vote.kind = k ∧ p.vote.slot = s
  saves : ∀ save ∈ v.certSaves, save.duplicate = false ∧ save.cert ∈ v.certLog.map CertRecord.cert
  waiting : v.started = false → v.waits = []
  unvoted : todo ≠ [] → ∀ s i, v.votes s i = {}
  replayed : v.started = true → todo = []
  pipeline : Pipeline View.Unopposed cfg v

/-- What an input grants is in line with the journal and the own key; while certificates wait
for their replay, nothing else is granted. -/
structure Signing.Granted (cfg : Config) (ctx : Ctx) (todo : List Certificate)
    (v : View) : Prop where
  received : ∀ c, ctx.received c → ∀ s ∈ c.signatures, cfg.localIndex = some s.validatorIndex →
    cfg.verifyVote s.validatorIndex c.vote s.signature = true → .sign c.vote ∈ v.trace
  durable : ∀ c, ctx.answered c ∨ ctx.replayed c → ⟨c, true⟩ ∈ v.certLog
  silent : todo ≠ [] → v.inbox = [] ∧ (∀ b, ¬ ctx.acked b) ∧ (∀ p, ¬ ctx.arrived p) ∧
    (∀ c, ¬ ctx.received c) ∧ (∀ c, ¬ ctx.answered c) ∧ ¬ ctx.opening

namespace Signing

variable {cfg : Config} {ctx : Ctx} {todo : List Certificate} {rest : List Vote} {v w : View}
  {c : Certificate}

/-! ## Votes that are cast -/

section

variable (h : Signing cfg todo v) (m : Move cfg ctx v w)
include h m

theorem certified_move (a : Vote) (ha : a ∈ w.log) (kind : a.kind = .finalize) :
    ∃ c, ⟨c, true⟩ ∈ w.certLog ∧ c.vote = notarizeVote a.id := by
  have grown := m.grows
  have old (ha : a ∈ v.log) : ∃ c, ⟨c, true⟩ ∈ w.certLog ∧ c.vote = notarizeVote a.id :=
    (h.certified a ha kind).imp fun _ hc => hc.imp_left (grown.certLog.subset ·)
  rcases m.casts with ⟨log, -⟩ | ⟨s, b, slot, rule, live, -, rfl⟩
  · exact old (log_eq log ▸ ha)
  · rcases mem_log_journalVote ha with ha | rfl
    · exact old ha
    · cases rule with
      | finalize _ _ _ _ cert => exact ((h.seen s _ live cert).2.grows grown).durable
      | notarize | skip => cases kind

theorem shown_move (a : Vote) (ha : a ∈ w.log) (kind : a.kind = .finalize)
    (live : w.horizon ≤ a.slot) :
    (∃ c, w.certs a.slot .notarize = some c ∧ c.vote.id = a.id) ∨
      ∃ c ∈ todo, c.vote = notarizeVote a.id := by
  have grown := m.grows
  have old (ha : a ∈ v.log) : (∃ c, w.certs a.slot .notarize = some c ∧ c.vote.id = a.id) ∨
      ∃ c ∈ todo, c.vote = notarizeVote a.id :=
    (h.shown a ha kind (UInt32.le_trans grown.horizon live)).imp_left fun ⟨c, hc, hid⟩ =>
      ⟨c, grown.certs _ _ _ live hc, hid⟩
  rcases m.casts with ⟨log, -⟩ | ⟨s, b, slot, rule, alive, -, rfl⟩
  · exact old (log_eq log ▸ ha)
  · rcases mem_log_journalVote ha with ha | rfl
    · exact old ha
    · cases rule with
      | finalize _ _ _ _ cert => exact .inl (((h.seen s _ alive cert).2.grows grown).pooled live)
      | notarize | skip => cases kind

omit m in
/-- A notarize vote that is cast goes with the finalize votes already journaled. -/
theorem cast_agrees {s : UInt32} {slot : VoterSlot} {a b : Vote}
    (rule : CastRule s (v.voter s) b slot) (live : v.voterHorizon ≤ s) (ok : v.failed = false)
    (ha : a ∈ v.log) (ka : a.kind = .finalize) (kb : b.kind = .notarize) (same : a.slot = b.slot) :
    a.id = b.id := by
  cases rule with
  | notarize here pending validated stored fresh =>
    subst here
    obtain ⟨c, hc, rfl⟩ := Option.map_eq_some_iff.mp pending
    exact (h.pipeline.slots _ live).checked ok c hc (.inr validated) live fresh a ha ka same
  | finalize | skip => cases kb

theorem agree_move (ballots : Ballots cfg rest v) (a : Vote) (ha : a ∈ w.log) (b : Vote)
    (hb : b ∈ w.log) (ka : a.kind = .finalize) (kb : b.kind = .notarize) (same : a.slot = b.slot) :
    a.id = b.id := by
  rcases m.casts with ⟨log, -⟩ | ⟨s, c, slot, rule, live, ok, rfl⟩
  · rw [log_eq log] at ha hb
    exact h.agree a ha b hb ka kb same
  · have here := rule.slot_eq
    rcases mem_log_journalVote ha with olda | newa
    · rcases mem_log_journalVote hb with oldb | newb
      · exact h.agree a olda b oldb ka kb same
      · subst newb
        exact h.cast_agrees rule live ok olda ka kb same
    · subst newa
      rcases mem_log_journalVote hb with oldb | newb
      · have flag := ballots.notarize_flag oldb (by rw [← same, here]; exact live) kb
        have voted := rule.finalize_voted ka
        rw [← same, here] at flag
        rw [rule.keeps_votedNotar flag] at voted
        exact (Option.some.inj voted).symm
      · rw [newb]

/-! ## Certificates -/

theorem ownCerts_move (g : Granted cfg ctx todo v) (r : CertRecord) (hr : r ∈ w.certLog)
    (s : VoteSignature) (hs : s ∈ r.cert.signatures)
    (own : cfg.localIndex = some s.validatorIndex) : .sign r.cert.vote ∈ w.trace := by
  apply m.grows.trace.subset
  rcases m.saves hr with old | ⟨received, valid⟩ | ⟨-, built⟩
  · exact h.ownCerts r old s hs own
  · obtain ⟨-, -, -, valid⟩ :=
      cfg.verifyCertificatePayload_ok (cfg.verifyCertificate_payload valid)
    exact g.received _ received s hs own (valid s hs)
  · rw [built] at hs
    obtain ⟨p, hp, -, hv, -⟩ := ValidatorVotes.mem_buildCertificate hs
    have signed := (h.records _ _ _ p own hp).1
    rw [hv] at signed
    exact signed

theorem known_move (r : CertRecord) (hr : r ∈ w.certLog) (live : w.horizon ≤ r.cert.vote.slot) :
    w.certs r.cert.vote.slot r.cert.vote.kind ≠ none ∨
      w.saving r.cert.vote.slot r.cert.vote.kind = true ∨ r.cert ∈ todo := by
  have grown := m.grows
  have pooled (hc : v.certs r.cert.vote.slot r.cert.vote.kind ≠ none) :
      w.certs r.cert.vote.slot r.cert.vote.kind ≠ none := by
    obtain ⟨c, hc⟩ := Option.ne_none_iff_exists'.mp hc
    rw [grown.certs _ _ c live hc]
    simp
  have old (hr : r ∈ v.certLog) := h.known r hr (UInt32.le_trans grown.horizon live)
  have kept (hr : r ∈ v.certLog) (saving : w.saving = v.saving) :
      w.certs r.cert.vote.slot r.cert.vote.kind ≠ none ∨
        w.saving r.cert.vote.slot r.cert.vote.kind = true ∨ r.cert ∈ todo := by
    rw [saving]
    exact (old hr).imp_left pooled
  have flagged {cert : Certificate} :
      (v.journalCert cert).saving r.cert.vote.slot r.cert.vote.kind =
        if r.cert.vote.slot = cert.vote.slot ∧ r.cert.vote.kind = cert.vote.kind then true
        else v.saving r.cert.vote.slot r.cert.vote.kind := by
    unfold View.journalCert
    by_cases hs : r.cert.vote.slot = cert.vote.slot
    · by_cases hk : r.cert.vote.kind = cert.vote.kind <;> simp [hs, hk]
    · simp [hs]
  have cleared {cert : Certificate} (hr : r ∈ v.certLog) :
      (v.storeCert cert).certs r.cert.vote.slot r.cert.vote.kind ≠ none ∨
        (v.storeCert cert).saving r.cert.vote.slot r.cert.vote.kind = true ∨ r.cert ∈ todo := by
    unfold View.storeCert
    by_cases hs : r.cert.vote.slot = cert.vote.slot
    · by_cases hk : r.cert.vote.kind = cert.vote.kind
      · simp [hs, hk]
      · simpa [hs, hk] using old hr
    · simpa [hs] using old hr
  cases m with
  | quiet q => exact kept (q.certLog ▸ hr) q.saving
  | save live' absent idle source =>
    by_cases hr' : r ∈ v.certLog
    · refine (old hr').imp_right (Or.imp_left fun hs => ?_)
      rw [flagged]
      split
      · rfl
      · exact hs
    · right
      left
      rw [flagged, if_pos]
      unfold View.journalCert at hr
      dsimp only at hr
      split at hr
      · exact (hr' hr).elim
      · rw [mem_singleton.mp ((mem_append.mp hr).resolve_left hr')]
        exact ⟨rfl, rfl⟩
  | store _ _ _ stored =>
    cases stored with
    | final =>
      rw [certs_finalizeCert live]
      have saving : (v.finalizeCert _).saving r.cert.vote.slot = (v.storeCert _).saving _ :=
        if_neg (UInt32.not_lt.mpr live)
      rw [saving]
      exact cleared hr
    | _ => exact cleared hr
  | _ => exact kept hr rfl

theorem saves_move (g : Granted cfg ctx todo v) (save : CertSave) (hs : save ∈ w.certSaves) :
    save.duplicate = false ∧ save.cert ∈ w.certLog.map CertRecord.cert := by
  have old (hs : save ∈ v.certSaves) :
      save.duplicate = false ∧ save.cert ∈ w.certLog.map CertRecord.cert :=
    (h.saves save hs).imp_right fun hc => (m.grows.certLog.map _).subset hc
  cases m with
  | quiet q => exact old (q.certSaves hs)
  | save live absent idle source =>
    rename_i cert
    -- A record of this certificate would be pooled, being saved, or waiting for its replay.
    have fresh : (v.certLog.any fun r => decide (r.cert = cert)) = false := by
      by_contra known
      obtain ⟨r, hr, hc⟩ := any_eq_true.mp (Bool.eq_true_of_not_eq_false known)
      have hc := of_decide_eq_true hc
      rcases h.known r hr (hc ▸ live) with pooled | saving | waiting
      · exact pooled (hc ▸ absent)
      · rw [hc, idle] at saving
        cases saving
      · have left : todo ≠ [] := ne_nil_of_mem waiting
        rcases source with ⟨received, -⟩ | ⟨-, -, i, k, voted⟩
        · exact (g.silent left).2.2.2.1 cert received
        · rw [h.unvoted left] at voted
          exact voted (ValidatorVotes.byKind_empty k)
    rcases mem_append.mp hs with hs | hs
    · exact old hs
    · rw [mem_singleton.mp hs]
      refine ⟨fresh, ?_⟩
      unfold View.journalCert
      rw [fresh]
      simp
  | store _ _ _ stored => cases stored <;> exact old hs
  | _ => exact old hs

/-! ## The own record -/

theorem records_move (ballots : Ballots cfg rest v) (g : Granted cfg ctx todo v) (i : Nat)
    (s : UInt32) (k : VoteKind) (p : Proven) (own : cfg.localIndex = some i)
    (hp : (w.votes s i).byKind k = some p) :
    .sign p.vote ∈ w.trace ∧ p.vote.kind = k ∧ p.vote.slot = s := by
  have grown := m.grows.trace
  rcases m.records hp with hp | ⟨kind, slot, ⟨-, sourced, -⟩ | ⟨cert, answered, -, eq, t, mem, rfl⟩⟩
  · exact (h.records i s k p own hp).imp_left (grown.subset ·)
  · exact ⟨grown.subset (ballots.sourced_signed own sourced), kind, slot⟩
  · have signed := h.ownCerts _ (g.durable _ (.inl answered)) _ mem own
    exact ⟨grown.subset (eq ▸ signed), kind, slot⟩

omit m in
theorem compatible (ballots : Ballots cfg rest v) {a b : Vote} (ha : a ∈ v.log) (hb : b ∈ v.log) :
    Compatible a b := by
  intro same
  refine ⟨fun ka kb => ?_, fun ka kb => ballots.finalize_not_skip ha hb same ka kb⟩
  cases hka : a.kind with
  | skip => exact (ka hka).elim
  | notarize =>
    cases hkb : b.kind with
    | skip => exact (kb hkb).elim
    | notarize => exact ballots.notarize_unique ha hb same hka hkb
    | finalize => exact (h.agree b hb a ha hkb hka same.symm).symm
  | finalize =>
    cases hkb : b.kind with
    | skip => exact (kb hkb).elim
    | notarize => exact h.agree a ha b hb hka hkb same
    | finalize => rw [ballots.finalize_unique ha hb same hka hkb]

theorem unconflicted_move (ballots : Ballots cfg rest v) : w.conflicted = false := by
  cases m with
  | quiet q =>
    by_contra hc
    rw [Bool.not_eq_false] at hc
    have := q.conflicted hc
    rw [h.unconflicted] at this
    cases this
  | conflict own sourced ok live clash =>
    have logged {b : Vote} (hb : .sign b ∈ v.trace) : b ∈ v.log :=
      Ballots.mem_log_of_durable (ballots.signed b hb)
    rename_i i b sig
    have clean : ((v.votes b.slot i).add ⟨b, sig, none⟩).2.2 = none :=
      ValidatorVotes.add_compatible (· ∈ v.log) (fun a b ha hb => h.compatible ballots ha hb)
        (fun k q hq => (h.records _ _ k q own hq).imp_left logged)
        (logged (ballots.sourced_signed own sourced))
    rw [clean] at clash
    cases clash
  | store _ _ _ stored => cases stored <;> exact h.unconflicted
  | _ => exact h.unconflicted

theorem unvoted_move (g : Granted cfg ctx todo v) (left : todo ≠ []) (s : UInt32) (i : Nat) :
    w.votes s i = {} := by
  obtain ⟨inbox, acked, -, -, answered, -⟩ := g.silent left
  cases m with
  | quiet q => rw [q.votes]; exact h.unvoted left s i
  | apply sourced =>
    rcases sourced with ⟨-, ack, -⟩ | ⟨⟨src, mem⟩, -⟩
    · exact (acked _ ack).elim
    · rw [inbox] at mem
      cases mem
  | extract answer => exact (answered _ answer).elim
  | store _ _ _ stored =>
    cases stored with
    | final =>
      rw [votes_finalizeCert]
      split
      · rfl
      · exact h.unvoted left s i
    | _ => exact h.unvoted left s i
  | _ => exact h.unvoted left s i

/-! ## Voting flags and the pipeline -/

theorem queued_move (g : Granted cfg ctx todo v) (id : CandidateID)
    (hq : .voterNotarizationObserved id ∈ w.queue) : w.Shows id := by
  rcases m.notarizes hq with old | ⟨cert, source, vote, pooled⟩
  · exact (h.queued id old).grows m.grows
  · refine ⟨⟨cert, m.grows.certLog.subset (g.durable cert source), vote⟩, fun _ => ?_⟩
    exact ⟨cert, pooled, by rw [vote]; rfl⟩

theorem seen_move (s : UInt32) (id : CandidateID) (live : w.voterHorizon ≤ s)
    (hn : (w.voter s).notarCert = some id) : id.slot = s ∧ w.Shows id := by
  have grown := m.grows
  rcases m.sees live hn with old | ⟨here, queued⟩
  · exact (h.seen s id (UInt32.le_trans grown.voterHorizon live) old).imp_right (·.grows grown)
  · exact ⟨here, (h.queued id queued).grows grown⟩

omit h in
theorem unopposed_move (h : v.Unopposed id) : w.Unopposed id := by
  intro live fresh a ha kind same
  have grown := m.grows
  have unvoted : (v.voter id.slot).votedNotar = none := by
    by_contra voted
    obtain ⟨c, hc⟩ := Option.ne_none_iff_exists'.mp voted
    have kept : (w.voter id.slot).votedNotar = some c :=
      grown.flags id.slot (notarizeVote c) live hc
    rw [fresh] at kept
    cases kept
  have old (ha : a ∈ v.log) : a.id = id :=
    h (UInt32.le_trans grown.voterHorizon live) unvoted a ha kind same
  rcases m.casts with ⟨log, -⟩ | ⟨s, b, slot, rule, -, -, rfl⟩
  · exact old (log_eq log ▸ ha)
  · rcases mem_log_journalVote ha with ha | rfl
    · exact old ha
    · have voted := rule.finalize_voted kind
      change (Function.update v.voter s slot id.slot).votedNotar = none at fresh
      rw [← same, rule.slot_eq, Function.update_self, voted] at fresh
      cases fresh

omit m in
/-- A parent wait is only settled for the candidate the slot's notarize certificate names. -/
theorem settle {c : Candidate} {pool : Pool} (waiting : c ∈ v.waits) (same : v.Matches pool)
    (settled : pool.evaluateParentWait c = .done .ok) : (v.settle c pool).Unopposed c.id := by
  have started : v.started = true := by
    by_contra closed
    rw [h.waiting (by simpa using closed)] at waiting
    cases waiting
  intro _ _ a ha kind slot
  unfold Pool.evaluateParentWait at settled
  dsimp only at settled
  split at settled
  · cases settled
  next live =>
    rw [same.horizon, UInt32.not_lt, ← slot] at live
    split at settled
    · cases settled
    · split at settled
      · cases settled
      next unclashing =>
        rcases h.shown a ha kind live with ⟨cert, hc, hid⟩ | ⟨cert, mem, -⟩
        · rw [slot, ← same.certs] at hc
          have named : ((pool.slots.get? c.id.slot).getD default).notarizedBlock = some a.id := by
            rw [← hid]
            unfold PoolSlot.notarizedBlock
            rw [show ((pool.slots.get? c.id.slot).getD default).notarCert = some cert from hc]
          rw [named] at unclashing
          exact Option.some.inj (not_not.mp fun ne => unclashing ⟨by simp, ne⟩)
        · rw [h.replayed started] at mem
          cases mem

theorem waiting_move (closed : w.started = false) : w.waits = [] := by
  cases m with
  | quiet q =>
    have sub := q.waits
    rw [h.waiting (q.started ▸ closed)] at sub
    exact subset_nil.mp sub
  | begin => cases closed
  | wait _ started =>
    rw [show v.started = false from closed] at started
    cases started
  | store _ _ _ stored => cases stored <;> exact h.waiting closed
  | _ => exact h.waiting closed

theorem replayed_move (g : Granted cfg ctx todo v) (started : w.started = true) : todo = [] := by
  by_contra left
  rw [m.started (g.silent left).2.2.2.2.2] at started
  exact left (h.replayed started)

end

section

variable (h : Signing cfg todo v) (ballots : Ballots cfg rest v) (g : Granted cfg ctx todo v)
include h ballots g

theorem move (m : Move cfg ctx v w) : Signing cfg todo w where
  certified := h.certified_move m
  agree := h.agree_move m ballots
  ownCerts := h.ownCerts_move m g
  unconflicted := h.unconflicted_move m ballots
  shown := h.shown_move m
  known := h.known_move m
  seen := h.seen_move m
  queued := h.queued_move m g
  records := h.records_move m ballots g
  saves := h.saves_move m g
  waiting := h.waiting_move m
  unvoted := h.unvoted_move m g
  replayed := h.replayed_move m g
  pipeline := h.pipeline.move m (fun _ => unopposed_move m)
    fun _ _ _ waiting same settled => h.settle waiting same settled

omit h ballots in
theorem Granted.move (m : Move cfg ctx v w) : Granted cfg ctx todo w where
  received c hc s hs own valid := m.grows.trace.subset (g.received c hc s hs own valid)
  durable c hc := m.grows.certLog.subset (g.durable c hc)
  silent left := by
    obtain ⟨inbox, quiet⟩ := g.silent left
    refine ⟨?_, quiet⟩
    cases m with
    | quiet q =>
      have sub := q.inbox
      rw [inbox] at sub
      exact subset_nil.mp sub
    | buffer arrived => exact (quiet.2.1 _ arrived).elim
    | store _ _ _ stored => cases stored <;> exact inbox
    | _ => exact inbox

theorem moves (gb : Ballots.Granted cfg ctx rest v) (m : Moves cfg ctx v w) :
    Signing cfg todo w ∧ Granted cfg ctx todo w := by
  induction m with
  | refl => exact ⟨h, g⟩
  | tail before m ih =>
    exact ⟨ih.1.move (ballots.moves gb before).1 ih.2 m, ih.2.move m⟩

end

/-! ## Recovery -/

theorem discharge (h : Signing cfg (c :: todo) v)
    (stored : v.horizon ≤ c.vote.slot → v.certs c.vote.slot c.vote.kind = some c) :
    Signing cfg todo v :=
  { h with
    shown := fun a ha kind live => by
      rcases h.shown a ha kind live with pooled | ⟨d, hd, named⟩
      · exact .inl pooled
      · rcases mem_cons.mp hd with rfl | hd
        · refine .inl ⟨d, ?_, by rw [named]; rfl⟩
          rw [named] at stored
          exact stored live
        · exact .inr ⟨d, hd, named⟩
    known := fun r hr live => by
      rcases h.known r hr live with pooled | saving | waiting
      · exact .inl pooled
      · exact .inr (.inl saving)
      · rcases mem_cons.mp waiting with here | waiting
        · rw [here] at live ⊢
          exact .inl (by rw [stored live]; simp)
        · exact .inr (.inr waiting)
    unvoted := fun _ => h.unvoted (by simp)
    replayed := fun started => by cases h.replayed started }

theorem Granted.discharge (g : Granted cfg ctx (c :: todo) v) : Granted cfg ctx todo v :=
  { g with silent := fun _ => g.silent (by simp) }

end Signing

theorem Store.stored {cert : Certificate} {v : View} (h : Store cert v w)
    (live : w.horizon ≤ cert.vote.slot) : w.certs cert.vote.slot cert.vote.kind = some cert := by
  have here : (v.storeCert cert).certs cert.vote.slot cert.vote.kind = some cert := by
    rw [certs_storeCert, if_pos ⟨rfl, rfl⟩]
  cases h with
  | final => rw [certs_finalizeCert live]; exact here
  | _ => exact here

/-- What a journal keeps of the certificates: nothing else, and those whose save was
acknowledged. -/
structure CertsKept (log : List CertRecord) (bs : BootstrapState) : Prop where
  subset : bs.certificates ⊆ log.map CertRecord.cert
  durable : ∀ c, ⟨c, true⟩ ∈ log → c ∈ bs.certificates

/-- A crash: what the journal kept still agrees, and all certificates wait for their replay. -/
theorem Signing.recovered {v : View}
    {bs : BootstrapState} (h : Signing cfg todo v) (votes : VotesKept v.voteLog bs)
    (certs : CertsKept v.certLog bs) :
    Signing cfg bs.certificates (View.recovered cfg bs v.trace) := by
  have log : (View.recovered cfg bs v.trace).log = bs.ourVotes := by
    rw [View.log, View.recovered, map_map]
    exact map_id _
  have old {b : Vote} (hb : b ∈ (View.recovered cfg bs v.trace).log) : b ∈ v.log :=
    votes.ordered.subset (log ▸ hb)
  have kept (a : Vote) (ha : a ∈ (View.recovered cfg bs v.trace).log) (kind : a.kind = .finalize) :
      ∃ c ∈ bs.certificates, c.vote = notarizeVote a.id := by
    obtain ⟨c, durable, named⟩ := h.certified a (old ha) kind
    exact ⟨c, certs.durable c durable, named⟩
  have recorded (r : CertRecord) (hr : r ∈ (View.recovered cfg bs v.trace).certLog) :
      r.cert ∈ bs.certificates := by
    obtain ⟨c, hc, rfl⟩ := mem_map.mp hr
    exact hc
  exact
    { certified := fun a ha kind => by
        obtain ⟨c, hc, named⟩ := kept a ha kind
        exact ⟨c, mem_map.mpr ⟨c, hc, rfl⟩, named⟩
      agree := fun a ha b hb => h.agree a (old ha) b (old hb)
      ownCerts := fun r hr s hs own => by
        obtain ⟨r', hr', same⟩ := mem_map.mp (certs.subset (recorded r hr))
        rw [← same] at hs ⊢
        exact h.ownCerts r' hr' s hs own
      unconflicted := rfl
      shown := fun a ha kind _ => .inr (kept a ha kind)
      known := fun r hr _ => .inr (.inr (recorded r hr))
      seen := fun s id _ hn => by
        rw [show ((View.recovered cfg bs v.trace).voter s).notarCert = none from
          (BootstrapState.voter_idle.idle s).notarCert] at hn
        cases hn
      queued := by simp [View.recovered]
      records := fun i s k p _ hp => by
        rw [show (View.recovered cfg bs v.trace).votes s i = {} from rfl,
          ValidatorVotes.byKind_empty] at hp
        cases hp
      saves := by simp [View.recovered]
      waiting := fun _ => rfl
      unvoted := fun _ _ _ => rfl
      replayed := by simp [View.recovered]
      pipeline := .recovered h.pipeline.admitted }

namespace Engine

variable {cfg : Config} {e : Engine} {v : View} {bs : BootstrapState} {rest : List Vote}

/-- The certificate replay takes the certificates off the list one by one, until one fails. -/
theorem replayCertificates_signing {ctx : Ctx} (certs : List Certificate)
    (h : Signing cfg certs e.view) (ballots : Ballots cfg rest e.view)
    (g : Signing.Granted cfg ctx certs e.view) (gb : Ballots.Granted cfg ctx rest e.view)
    (replayed : ∀ c ∈ certs, ctx.replayed c) :
    ∃ todo, Signing cfg todo (e.replayCertificates cfg certs).1.view ∧
      ((e.replayCertificates cfg certs).2 = none → todo = []) := by
  induction certs generalizing e with
  | nil => exact ⟨[], h, fun _ => rfl⟩
  | cons cert later ih =>
    have others := fun c hc => replayed c (mem_cons_of_mem cert hc)
    unfold replayCertificates
    split
    next pruned =>
      refine ih (h.discharge fun live => ?_) ballots g.discharge gb others
      exact absurd (SlotMap.get?_eq_none.mp pruned) (UInt32.not_lt.mpr live)
    next slot found =>
      split
      next needs =>
        have fresh : slot.certByKind cert.vote.kind = none := by
          simp only [PoolSlot.needs, Bool.and_eq_true, Option.isNone_iff_eq_none] at needs
          exact needs.1
        have moves : Refines cfg ctx e (e.storeSavedCertificate cfg slot cert) :=
          storeSavedCertificate_refines (.inr (replayed cert mem_cons_self)) found
        obtain ⟨e₁, e₂, -, ⟨u, store, quiet⟩, resolved⟩ :=
          storeSavedCertificate_stores cfg ctx found fresh
        obtain ⟨signing, granted⟩ := h.moves ballots g gb moves
        obtain ⟨ballots', gb'⟩ := ballots.moves gb moves
        dsimp only
        generalize e.storeSavedCertificate cfg slot cert = e' at *
        split
        · exact ⟨_, signing, fun none => by cases none⟩
        · refine ih (signing.discharge fun live => ?_) ballots' granted.discharge gb' others
          have grown := Moves.grows resolved
          refine grown.certs _ _ _ live ?_
          rw [quiet.certs]
          exact store.stored (by rw [← quiet.horizon]; exact UInt32.le_trans grown.horizon live)
      · exact ⟨_, h, fun none => by cases none⟩

theorem signing_granted_nothing {opening : Prop} :
    Signing.Granted cfg { Ctx.nothing with opening } [] v :=
  ⟨fun _ h => h.elim, fun _ h => by rcases h with h | h <;> exact h.elim, fun h => absurd rfl h⟩

theorem replayVotes_signing (votes : List Vote) (h : Signing cfg [] e.view)
    (ballots : Ballots cfg votes e.view) (direct : Direct cfg e.view)
    (ordered : votes.Pairwise Follows) (durable : ∀ b ∈ votes, ⟨b, true⟩ ∈ e.view.voteLog)
    (silent : votes ≠ [] → e.view.inbox = []) :
    Signing cfg [] (votes.foldl (replayVote cfg) e).view := by
  induction votes generalizing e with
  | nil => exact h
  | cons b rest ih =>
    have refines : Refines cfg (Ctx.acks b) e (e.replayVote cfg b) := replayVote_refines rfl
    have first := durable b mem_cons_self
    have quiet := silent (by simp)
    obtain ⟨ballots', direct', silent', grown⟩ :=
      replayVote_ballots ballots direct ordered first quiet
    have granted : Signing.Granted cfg (Ctx.acks b) [] e.view :=
      ⟨fun _ h => h.elim, fun _ h => by rcases h with h | h <;> exact h.elim, fun h => absurd rfl h⟩
    refine ih (h.moves ballots granted (replayVote_granted ordered first quiet) refines).1 ballots'
      direct' (pairwise_cons.mp ordered).2 (fun c hc => ?_) fun _ => silent'
    exact grown.voteLog.subset (durable c (mem_cons_of_mem _ hc))

theorem startSession_signing (h : Signing cfg [] e.view) (ready : Ready cfg bs e) :
    Signing cfg [] (e.startSession cfg bs.ourVotes).view := by
  have drained : Refines cfg { Ctx.nothing with opening := False } e _ := drainPending_nothing e
  have ready' := ready.drained drained
  have signing := (h.moves ready.ballots signing_granted_nothing
    (granted_nothing _ _ ready.silent) drained).1
  have replayed := replayVotes_signing bs.ourVotes signing ready'.ballots ready'.direct
    ready'.ordered ready'.durable ready'.silent
  obtain ⟨ballots, opened⟩ := ready'.opens
  exact (replayed.moves ballots signing_granted_nothing
    (granted_nothing [] True (by simp)) opened).1

/-- The journal and the history are in order, also of a node that is down. -/
structure NodeSigning (cfg : Config) (e : Engine) : Prop where
  kept : ∃ rest todo v, Ballots cfg rest v ∧ Signing cfg todo v ∧ v.voteLog = e.journal.votes ∧
    v.certLog = e.journal.certs ∧ v.trace = e.trace
  running : e.started = true → Ballots cfg [] e.view ∧ Signing cfg [] e.view
  unconflicted : e.view.conflicted = false

theorem start_signing (params : Params) (clock : Time)
    (ballots : Ballots cfg rest v) (h : Signing cfg todo v) (votes : VotesKept v.voteLog bs)
    (certs : CertsKept v.certLog bs) : NodeSigning cfg (start cfg params clock bs v.trace).1 := by
  have signing := h.recovered votes certs
  rcases start_cases params clock bs v.trace with refused | ⟨-, e, he, hstart⟩
  · rw [refused]
    exact ⟨⟨_, _, _, ballots.recovered votes, signing, rfl, rfl, rfl⟩, (fun h => by cases h), rfl⟩
  · have ready := Ready.replayed ballots votes (replayed_moves he)
    have recovered := ballots.recovered votes
    have gb : Ballots.Granted cfg (Ctx.replays bs.certificates) bs.ourVotes
      (View.recovered cfg bs v.trace) := granted_replays
    have g : Signing.Granted cfg (Ctx.replays bs.certificates) bs.certificates
        (View.recovered cfg bs v.trace) :=
      ⟨fun _ h => h.elim, fun c hc => mem_map.mpr ⟨c, hc.resolve_left fun h => h, rfl⟩,
        fun _ => ⟨rfl, fun _ h => h, fun _ h => h, fun _ h => h, fun _ h => h, fun h => h⟩⟩
    rw [← view_prepare params clock] at recovered signing g gb
    obtain ⟨todo, signing', left⟩ :=
      replayCertificates_signing bs.certificates signing recovered g gb fun _ h => h
    rw [← he] at signing'
    rcases hstart with stuck | ⟨done, opened⟩
    · rw [stuck]
      exact ⟨⟨_, _, _, ready.ballots, signing', rfl, rfl, rfl⟩,
        (fun h => by rw [ready.waiting] at h; cases h), signing'.unconflicted⟩
    · rw [left done] at signing'
      have ballots' := startSession_ballots ready
      have final := startSession_signing signing' ready
      rw [opened]
      exact ⟨⟨_, _, _, ballots', final, rfl, rfl, rfl⟩, fun _ => ⟨ballots', final⟩,
        final.unconflicted⟩

theorem Marked.signing (m : Marked v w) (h : Signing cfg [] v) : Signing cfg [] w := by
  have same := m.same
  have log := m.log
  have durable := m.certDurable
  have certs := m.certs
  have saves := m.certSaves
  rw [same] at log durable certs saves ⊢
  have recorded {r : CertRecord} (hr : r ∈ w.certLog) : ∃ r' ∈ v.certLog, r'.cert = r.cert :=
    mem_map.mp (certs ▸ mem_map.mpr ⟨r, hr, rfl⟩)
  have shows {id : CandidateID} (hs : v.Shows id) : View.Shows { v with
      voteLog := w.voteLog, certLog := w.certLog, voteSaves := w.voteSaves,
      certSaves := w.certSaves } id :=
    ⟨hs.durable.imp fun c hc => hc.imp_left (durable c), hs.pooled⟩
  exact
    { h with
      certified := fun a ha kind =>
        (h.certified a (log ▸ ha) kind).imp fun c hc => hc.imp_left (durable c)
      agree := fun a ha b hb => h.agree a (log ▸ ha) b (log ▸ hb)
      ownCerts := fun r hr s hs own => by
        obtain ⟨r', hr', same⟩ := recorded hr
        rw [← same] at hs ⊢
        exact h.ownCerts r' hr' s hs own
      shown := fun a ha => h.shown a (log ▸ ha)
      known := fun r hr live => by
        obtain ⟨r', hr', same⟩ := recorded hr
        rw [← same] at live ⊢
        exact h.known r' hr' live
      seen := fun s id live hn => (h.seen s id live hn).imp_right shows
      queued := fun id hq => shows (h.queued id hq)
      saves := fun save hs => (h.saves save (saves hs)).imp_right fun hc => by rw [certs]; exact hc
      pipeline := h.pipeline.frame fun id hid live fresh a ha => hid live fresh a (log ▸ ha) }

/-- A valid signature of the local key in a certificate that comes in was made here. -/
def OwnKeySafeCerts (cfg : Config) (e : Engine) (input : Input) : Prop :=
  ∀ src from_ m c, input = .message src from_ m → m.certifies c → ∀ s ∈ c.signatures,
    cfg.localIndex = some s.validatorIndex →
    cfg.verifyVote s.validatorIndex c.vote s.signature = true → .sign c.vote ∈ e.trace

theorem signing_granted_answered (input : Input) (h : Signing cfg [] e.view)
    (safe : OwnKeySafeCerts cfg e input) :
    Signing.Granted cfg (e.grants input) [] (e.answered input).view := by
  have nothing : Signing.Granted cfg Ctx.nothing [] (e.answered input).view :=
    signing_granted_nothing
  cases input with
  | message src from_ m =>
    exact { nothing with
      received := fun c hc => safe src from_ m c rfl hc
      silent := fun h => absurd rfl h }
  | certSaved cert res =>
    refine { nothing with durable := fun c hc => ?_, silent := fun h => absurd rfl h }
    obtain ⟨rfl, mem, written⟩ := hc.resolve_right fun h => h
    -- No save was a duplicate, so the answer acknowledges a new record.
    obtain ⟨fresh, recorded⟩ := h.saves _ mem
    have ok : res = .ok := by
      cases res with
      | ok => rfl
      | alreadySaved => cases fresh
      | error => exact (written rfl).elim
    obtain ⟨r, hr, rfl⟩ := mem_map.mp recorded
    simp only [answered, if_pos mem]
    subst ok
    exact mem_map.mpr ⟨r, hr, by rw [if_pos rfl]⟩
  | voteSaved v ok =>
    cases ok with
    | false => exact nothing
    | true => exact { nothing with silent := fun h => absurd rfl h }
  | _ => exact nothing

theorem step_signing (t : Time) (input : Input) (ballots : Ballots cfg [] e.view)
    (h : Signing cfg [] e.view) (safe : OwnKeySafe cfg e input)
    (safeCerts : OwnKeySafeCerts cfg e input) : Signing cfg [] (e.step cfg t input).view := by
  have marked := e.answered_marked input
  exact ((marked.signing h).moves (marked.ballots ballots)
    (signing_granted_answered input h safeCerts)
    (granted_answered input ballots safe) (step_refines e t input)).1

end Engine

/-- A local key only this node signs with, and a journal that keeps what it acknowledged. -/
def journalKeeping (cfg : Config) : Environment where
  admits e input := Engine.OwnKeySafe cfg e input ∧ Engine.OwnKeySafeCerts cfg e input
  reopens e bs := VotesKept e.journal.votes bs ∧ CertsKept e.journal.certs bs

theorem Signing.first (cfg : Config) : Signing cfg [] (View.first cfg) where
  certified := by simp [View.log, View.recovered]
  agree := by simp [View.log, View.recovered]
  ownCerts := by simp [View.recovered]
  unconflicted := rfl
  shown := by simp [View.log, View.recovered]
  known := by simp [View.recovered]
  seen s id _ hn := by
    rw [show ((View.first cfg).voter s).notarCert = none from
      (BootstrapState.voter_idle.idle s).notarCert] at hn
    cases hn
  queued := by simp [View.recovered]
  records := by simp [View.recovered]
  saves := by simp [View.recovered]
  waiting _ := rfl
  unvoted := by simp
  replayed _ := rfl
  pipeline := .recovered (by simp)

theorem reachable_signing (h : Reachable cfg (journalKeeping cfg) e) :
    Engine.NodeSigning cfg e := by
  induction h with
  | boot params clock =>
    exact Engine.start_signing params clock (.first cfg) (.first cfg)
      ⟨List.Sublist.refl _, by simp [View.recovered]⟩ ⟨by simp, by simp [View.recovered]⟩
  | step t _ started safe ih =>
    obtain ⟨ballots, signing⟩ := ih.running started
    have ballots' := Engine.step_ballots t _ ballots safe.1
    have next := Engine.step_signing t _ ballots signing safe.1 safe.2
    exact ⟨⟨_, _, _, ballots', next, rfl, rfl, rfl⟩, fun _ => ⟨ballots', next⟩, next.unconflicted⟩
  | restart params clock _ kept ih =>
    obtain ⟨rest, todo, v, ballots, signing, votes, certs, trace⟩ := ih.kept
    rw [← trace]
    exact Engine.start_signing params clock ballots signing (votes ▸ kept.1) (certs ▸ kept.2)

/-- Over all lifetimes of a node, the votes it signs never contradict each other, and it never
finds its own votes in conflict. -/
theorem signed_votes_never_conflict {cfg : Config} {e : Engine}
    (h : Reachable cfg (journalKeeping cfg) e) :
    (∀ a b, .sign a ∈ e.trace → .sign b ∈ e.trace → ¬ Equivocation a b) ∧
      ∀ v, e.fatalErr ≠ some (.conflictingVotes v) := by
  obtain ⟨⟨rest, todo, v, ballots, signing, -, -, trace⟩, -, unconflicted⟩ := reachable_signing h
  refine ⟨fun a b ha hb => ?_, fun v hv => ?_⟩
  · rw [← trace] at ha hb
    have compatible := signing.compatible ballots
      (Ballots.mem_log_of_durable (ballots.signed a ha))
      (Ballots.mem_log_of_durable (ballots.signed b hb))
    rintro ⟨same, ⟨ka, kb, ne⟩ | ⟨ka, kb⟩ | ⟨ka, kb, ne⟩⟩
    · exact ne ((compatible same).1 (by simp [ka]) (by simp [kb]))
    · exact (compatible same).2 ka kb
    · exact ne ((compatible same).1 (by simp [ka]) (by simp [kb]))
  · have conflicted : e.view.conflicted = true := by
      change e.fatalErr.any FatalError.isConflict = true
      rw [hv]
      rfl
    rw [unconflicted] at conflicted
    cases conflicted

/-- The validator notarizes slot 0, crashes, and skips the slot after the restart. -/
theorem signed_votes_never_conflict_solo :
    ((∀ a b, .sign a ∈ soloAfterCrash.trace → .sign b ∈ soloAfterCrash.trace →
        ¬ Equivocation a b) ∧
      ∀ v, soloAfterCrash.fatalErr ≠ some (.conflictingVotes v)) ∧
      OnWire soloAfterCrash.trace (notarizeVote ⟨0, 0⟩) ∧
        OnWire soloAfterCrash.trace (skipVote 0) := by
  have uncertified : (soloBeforeCrash.journal.certs.all fun r => !r.durable) = true := by
    decide +kernel
  have reached : Reachable soloConfig (journalKeeping soloConfig) soloAfterCrash := by
    refine soloAfterCrash_reachable (fun _ _ other => ?_) ⟨soloBeforeCrash_kept, by simp, ?_⟩
    · exact ⟨fun src from_ m _ h => (other src from_ m h).elim,
        fun src from_ m _ h => (other src from_ m h).elim⟩
    · intro c hc
      cases all_eq_true.mp uncertified _ hc
  exact ⟨signed_votes_never_conflict reached, by decide +kernel, by decide +kernel⟩

/-- The contract of `Journal`: own votes are durable before `done`, certificates need not be. -/
def journalContract (cfg : Config) : Environment where
  admits := (journalKeeping cfg).admits
  reopens e bs := VotesKept e.journal.votes bs ∧
    bs.certificates ⊆ e.journal.certs.map CertRecord.cert

/-- Validator 1 is a quorum by itself; the node is validator 0. -/
def minorConfig : Config where
  sessionID := 0
  validators := [⟨List.replicate 32 0, 1⟩, ⟨List.replicate 32 1, 3⟩]
  localIndex := some 0
  spw := 8
  expectedLeader _ := 1
  sha256
    | .empty _ _ => 0
    | .ordinary _ collated _ => collated
  ed25519Verify key _ sig := key.head? == sig.head?
  sign _ _ := some (List.replicate 64 0)
  keyNodeIDShort _ := 0

/-- A candidate for slot 0 arrives, is stored and validated. -/
def minorNotarizes (hash : Hash) : List Input :=
  [.submitCandidate { soloCandidate 0 genesis with
      id := ⟨0, hash⟩, leader := 1, collatedFileHash := hash, signature := List.replicate 64 1 },
    .storeDone ⟨0, hash⟩ true, .validateDone ⟨0, hash⟩ true]

def minorCertificate : Certificate := ⟨notarizeVote ⟨0, 1⟩, [⟨1, List.replicate 64 1⟩]⟩

/-- The notarize vote for candidate 1 is still being saved when its certificate arrives and the
finalize vote is cast and signed. -/
def minorInputs : List Input :=
  minorNotarizes 1 ++ [.message 0 (some 1) (.certificate minorCertificate),
    .certSaved minorCertificate .ok, .voteSaved (finalizeVote ⟨0, 1⟩) true]

def minorBeforeCrash : Engine :=
  minorInputs.foldl (fun e input => e.step minorConfig 0 input)
    (Engine.start minorConfig soloParams 0 ⟨0, [], []⟩ []).1

/-- The crash loses that save and the certificate; then candidate 2 arrives. -/
def minorLateInputs : List Input :=
  minorNotarizes 2 ++ [.voteSaved (notarizeVote ⟨0, 2⟩) true]

def minorAfterCrash : Engine :=
  minorLateInputs.foldl (fun e input => e.step minorConfig 0 input)
    (Engine.start minorConfig soloParams 0 ⟨0, [finalizeVote ⟨0, 1⟩], []⟩ minorBeforeCrash.trace).1

def Event.signs (b : Vote) : Event → Bool
  | .sign a => decide (a = b)
  | _ => false

theorem mem_of_signs {trace : List Event} {b : Vote} (h : trace.any (Event.signs b) = true) :
    .sign b ∈ trace := by
  obtain ⟨ev, mem, signs⟩ := any_eq_true.mp h
  unfold Event.signs at signs
  split at signs
  · exact of_decide_eq_true signs ▸ mem
  · cases signs

/-- A finalize vote for one candidate and a notarize vote for another one of the slot. -/
theorem lost_certificate_signs_conflict :
    Reachable minorConfig (journalContract minorConfig) minorAfterCrash ∧
      .sign (finalizeVote ⟨0, 1⟩) ∈ minorAfterCrash.trace ∧
      .sign (notarizeVote ⟨0, 2⟩) ∈ minorAfterCrash.trace ∧
      Equivocation (notarizeVote ⟨0, 2⟩) (finalizeVote ⟨0, 1⟩) ∧
      minorAfterCrash.fatalErr = some (.conflictingVotes (notarizeVote ⟨0, 2⟩)) := by
  have safe (e : Engine) (input : Input) (mem : input ∈ minorInputs ++ minorLateInputs) :
      (journalContract minorConfig).admits e input := by
    have harmless : ∀ src from_ m, input = .message src from_ m →
        m = .certificate minorCertificate := by
      rintro src from_ m rfl
      have only : src = 0 ∧ from_ = some 1 ∧ m = .certificate minorCertificate := by
        simpa [minorInputs, minorLateInputs, minorNotarizes] using mem
      exact only.2.2
    constructor
    · rintro src from_ m p rfl votes
      cases harmless src from_ m rfl
      exact votes.elim
    · rintro src from_ m c rfl certified s mem own
      cases harmless src from_ m rfl
      cases certified
      cases mem_singleton.mp mem
      cases own
  have crashed : Reachable minorConfig (journalContract minorConfig) minorBeforeCrash :=
    .serve (.boot soloParams 0) (by decide +kernel) 0 _ fun e i mem => safe e i (by simp [mem])
  have votes : minorBeforeCrash.journal.votes =
      [⟨notarizeVote ⟨0, 1⟩, false⟩, ⟨finalizeVote ⟨0, 1⟩, true⟩] := by decide +kernel
  have kept : VotesKept minorBeforeCrash.journal.votes ⟨0, [finalizeVote ⟨0, 1⟩], []⟩ := by
    rw [votes]
    exact ⟨by simp, by simp⟩
  have conflict : Equivocation (notarizeVote ⟨0, 2⟩) (finalizeVote ⟨0, 1⟩) :=
    ⟨rfl, .inr (.inr ⟨rfl, rfl, by decide⟩)⟩
  refine ⟨?_, mem_of_signs (by decide +kernel), mem_of_signs (by decide +kernel), conflict,
    by decide +kernel⟩
  exact .serve (.restart soloParams 0 crashed ⟨kept, by simp⟩) (by decide +kernel) 0 _
    fun e i mem => safe e i (by simp [mem])

end Gton.Simplex
