import Gton.Simplex.Node
import Gton.Simplex.Pipeline
import Gton.Simplex.SkipRuns

/-!
# The gate in front of a notarize vote

Every notarize vote an engine casts rests on a candidate of the scheduled leader that was
stored, validated and had its parent settled earlier in the same run; and there is one such
vote per slot.
-/

namespace Gton.Simplex

open List

/-- In the history `l`, the parent wait of a submitted candidate `id` was settled, on a pool
that justifies it. A candidate on genesis was settled before any finalization. -/
structure SettledBy (cfg : Config) (l : List Event) (c : Candidate) (pool : Pool)
    (before : List Event) : Prop where
  event : .parentSettled c pool :: before <:+ l
  submitted : .submitted c ∈ before
  admitted : cfg.Admitted c
  parent : pool.Settles c
  genesis : c.parent.defined = false → ∀ cert, .certStored cert ∈ before →
    cert.vote.kind ≠ .finalize

def Settled (cfg : Config) (l : List Event) (id : CandidateID) : Prop :=
  ∃ c pool before, c.id = id ∧ SettledBy cfg l c pool before

variable {cfg : Config} {id : CandidateID} {bs : BootstrapState} {e : Engine}
  {admits : Input → Prop}

theorem Settled.mono {l l' : List Event} (h : Settled cfg l id)
    (grown : l <:+ l') : Settled cfg l' id := by
  obtain ⟨c, pool, before, hid, h⟩ := h
  exact ⟨c, pool, before, hid, { h with event := h.event.trans grown }⟩

/-- What a notarize vote for `id` rests on, all of it in the history `l` before the vote. -/
structure Evidence (cfg : Config) (l : List Event) (id : CandidateID) : Prop where
  settled : Settled cfg l id
  stored : .stored id ∈ l
  validated : .validated id ∈ l

structure Gating (cfg : Config) (v : View) : Prop where
  pipeline : Pipeline (fun v id => Settled cfg v.trace id) cfg v
  runs : Runs v
  top : v.certs lastSlot .finalize = none
  unfinalized : v.failed = false → v.lastFinalized.defined = false →
    ∀ cert, .certStored cert ∈ v.trace → cert.vote.kind ≠ .finalize
  voted : ∀ id, .cast (notarizeVote id) ∈ v.trace → v.voterHorizon ≤ id.slot →
    (v.voter id.slot).Flagged (notarizeVote id)
  cast : ∀ id l, .cast (notarizeVote id) :: l <:+ v.trace →
    Evidence cfg l id ∧ ∀ id', id'.slot = id.slot → .cast (notarizeVote id') ∉ l

/-- No finalization of the last slot is among the certificates an input brings. -/
def Ctx.BelowTop (ctx : Ctx) : Prop :=
  ∀ c, ctx.answered c ∨ ctx.replayed c → c.vote.kind = .finalize → c.vote.slot ≠ lastSlot

namespace Gating

variable {cfg : Config} {ctx : Ctx} {v w : View}

section

variable (h : Gating cfg v) (below : ctx.BelowTop) (m : Move cfg ctx v w)
include h below m

omit below m in
theorem settle (ok : v.failed = false) {c : Candidate} {pool : Pool} (waiting : c ∈ v.waits)
    (same : v.Matches pool) (settled : pool.evaluateParentWait c = .done .ok) :
    Settled cfg (v.settle c pool).trace c.id := by
  have submitted := h.pipeline.waiting c waiting
  have settles := h.runs.settles same ok h.top settled
  refine ⟨c, pool, v.trace, rfl, suffix_refl _, submitted, h.pipeline.admitted c submitted,
    settles, fun undefined => h.unfinalized ok ?_⟩
  rcases settles.parent with final | ⟨defined, -⟩
  · rw [← same.lastFinalized, final]
    exact undefined
  · rw [undefined] at defined
    cases defined

theorem top_move : w.certs lastSlot .finalize = none := by
  rcases m.stores with same | ⟨cert, source, -, -, stored⟩
  · rw [same.certs]
    exact h.top
  · have other : (v.storeCert cert).certs lastSlot .finalize = none := by
      rw [View.certs_storeCert, if_neg, h.top]
      rintro ⟨slot, kind⟩
      exact below cert source kind.symm slot.symm
    cases stored with
    | final =>
      have live : (v.finalizeCert cert).horizon ≤ lastSlot := by unfold lastSlot; grind
      rw [View.certs_finalizeCert live]
      exact other
    | _ => exact other

omit below in
theorem unfinalized_move (ok : w.failed = false) (undefined : w.lastFinalized.defined = false)
    (cert : Certificate) (stored : .certStored cert ∈ w.trace) : cert.vote.kind ≠ .finalize := by
  rcases m.stores with same | ⟨new, -, -, -, store⟩
  · exact h.unfinalized (same.failed ok) (same.lastFinalized ▸ undefined) cert
      (same.trace cert stored)
  · cases store with
    | notar kind =>
      rcases mem_cons.mp stored with e | old
      · cases e
        simp [kind]
      · exact h.unfinalized ok undefined cert old
    | skip kind =>
      rcases mem_cons.mp stored with e | old
      · cases e
        simp [kind]
      · exact h.unfinalized ok undefined cert old
    | final => cases undefined
    | failed => cases ok

omit below m in
/-- A cast vote has passed the gate, and its slot had no notarize vote yet. -/
theorem cast_evidence {s : UInt32} {slot : VoterSlot}
    (rule : CastRule s (v.voter s) (notarizeVote id) slot) (live : v.voterHorizon ≤ s)
    (ok : v.failed = false) :
    Evidence cfg v.trace id ∧ ∀ id', id'.slot = id.slot → .cast (notarizeVote id') ∉ v.trace := by
  cases rule with
  | notarize here pending validated stored fresh =>
    have slot := h.pipeline.slots s live
    obtain ⟨c, hc, hid⟩ := Option.map_eq_some_iff.mp pending
    subst hid
    refine ⟨⟨slot.checked ok c hc (.inr validated), slot.stored c hc stored,
      slot.validated c hc validated⟩, fun id' same earlier => ?_⟩
    have flag := h.voted id' earlier (by rw [same, here]; exact live)
    rw [same, here] at flag
    rw [show (v.voter s).votedNotar = some id' from flag] at fresh
    cases fresh

omit below in
theorem cast_move (id : CandidateID) (l : List Event)
    (cast : .cast (notarizeVote id) :: l <:+ w.trace) :
    Evidence cfg l id ∧ ∀ id', id'.slot = id.slot → .cast (notarizeVote id') ∉ l := by
  rcases m.casts with ⟨-, l', trace, plain⟩ | ⟨s, b, slot, rule, live, ok, rfl⟩
  · refine h.cast id l ?_
    rw [trace] at cast
    clear trace
    -- None of the new events is a cast, so the vote lies in the old history.
    induction l' with
    | nil => exact cast
    | cons ev l' ih =>
      rcases suffix_cons_iff.mp cast with e | later
      · cases e
        exact (plain _ mem_cons_self).elim
      · exact ih later fun b hb => plain b (mem_cons_of_mem _ hb)
  · rcases suffix_cons_iff.mp cast with e | earlier
    · cases e
      exact h.cast_evidence rule live ok
    · exact h.cast id l earlier

omit below in
theorem voted_move (id : CandidateID) (cast : .cast (notarizeVote id) ∈ w.trace)
    (live : w.voterHorizon ≤ id.slot) : (w.voter id.slot).Flagged (notarizeVote id) := by
  have grown := m.grows
  have old (hc : .cast (notarizeVote id) ∈ v.trace) : (w.voter id.slot).Flagged (notarizeVote id) :=
    grown.flags _ _ live (h.voted id hc (UInt32.le_trans grown.voterHorizon live))
  rcases m.casts with ⟨-, l', trace, plain⟩ | ⟨s, b, slot, rule, -, -, rfl⟩
  · rw [trace] at cast
    exact old ((mem_append.mp cast).resolve_left (plain _))
  · rcases mem_cons.mp cast with e | earlier
    · cases e
      have here : id.slot = s := rule.slot_eq
      change (Function.update v.voter s slot id.slot).Flagged _
      rw [here, Function.update_self]
      exact rule.flagged
    · exact old earlier

theorem move : Gating cfg w where
  pipeline := h.pipeline.move m (fun _ settled => settled.mono m.grows.trace)
    fun ok _ _ waiting same settled => h.settle ok waiting same settled
  runs := h.runs.move m
  top := h.top_move below m
  unfinalized := h.unfinalized_move m
  voted := h.voted_move m
  cast := h.cast_move m

end

theorem moves (h : Gating cfg v) (below : ctx.BelowTop) (m : Moves cfg ctx v w) : Gating cfg w := by
  induction m with
  | refl => exact h
  | tail _ m ih => exact ih.move below m

/-- A fresh engine: nothing in the pipeline, in the pool or in the history. -/
theorem fresh (idle : ∀ s, (v.voter s).Idle) (waits : v.waits = []) (queue : v.queue = [])
    (certs : v.certs = fun _ _ => none) (skipRuns : v.skipRuns = []) (trace : v.trace = []) :
    Gating cfg v where
  pipeline :=
    { admitted := by simp [trace]
      waiting := by simp [waits]
      settled := by simp [queue]
      slots := fun s _ =>
        { idle := fun _ => ⟨(idle s).stored, (idle s).validated, (idle s).flying⟩
          here := by simp [(idle s).pending]
          stored := by simp [(idle s).pending]
          validated := by simp [(idle s).pending]
          checked := by simp [(idle s).pending] } }
  runs := .empty certs skipRuns
  top := by simp [certs]
  unfinalized := by simp [trace]
  voted := by simp [trace]
  cast := by simp [trace]

theorem marked (h : Gating cfg v) (m : Engine.Marked v w) : Gating cfg w := by
  rw [m.same]
  exact
    { pipeline := h.pipeline.frame fun _ settled => settled
      runs := h.runs.frame { SamePool.refl v with }
      top := h.top
      unfinalized := h.unfinalized
      voted := h.voted
      cast := h.cast }

end Gating

/-! ## Runs of one engine -/

/-- The inputs that do not bring a finalization of the last slot. -/
def Input.BelowTop (input : Input) : Prop :=
  ∀ cert res, input = .certSaved cert res → cert.vote.kind = .finalize →
    cert.vote.slot ≠ lastSlot

theorem Input.BelowTop.ctx {input : Input} (h : input.BelowTop) (e : Engine) :
    (e.grants input).BelowTop := by
  intro c source
  cases input with
  | certSaved cert res =>
    rcases source with ⟨rfl, -⟩ | replayed
    · exact h c res rfl
    · exact replayed.elim
  | voteSaved v ok => cases ok <;> rcases source with h | h <;> exact h.elim
  | _ => rcases source with h | h <;> exact h.elim

/-- A run of one engine: `Start` on any journal, then any admitted inputs at any times. -/
inductive Run (cfg : Config) (bs : BootstrapState) (admits : Input → Prop) : Engine → Prop where
  | start (params : Params) (clock : Time) :
      Run cfg bs admits (Engine.start cfg params clock bs []).1
  | step {e : Engine} (t : Time) {input : Input} : Run cfg bs admits e → admits input →
      Run cfg bs admits (e.step cfg t input)

theorem Run.serve
    (h : Run cfg bs admits e) (t : Time) (inputs : List Input) (ok : ∀ i ∈ inputs, admits i) :
    Run cfg bs admits (inputs.foldl (fun e input => e.step cfg t input) e) := by
  induction inputs generalizing e with
  | nil => exact h
  | cons input inputs ih =>
    exact ih (h.step t (ok _ mem_cons_self)) fun i hi => ok i (mem_cons_of_mem _ hi)

/-- The bootstrap certificates do not finalize the last slot either. -/
def BootstrapState.BelowTop (bs : BootstrapState) : Prop :=
  ∀ c ∈ bs.certificates, c.vote.kind = .finalize → c.vote.slot ≠ lastSlot

theorem Run.gating (journal : bs.BelowTop)
    (h : Run cfg bs Input.BelowTop e) : Gating cfg e.view := by
  induction h with
  | start params clock =>
    have none_stored : (default : PoolSlot).certByKind = fun _ => none := by
      funext k; cases k <;> rfl
    rcases Engine.start_refines params clock bs [] with refused | ⟨-, moves⟩
    · rw [refused]
      refine .fresh (fun s => Idle.empty.idle s) rfl rfl (funext fun s => ?_) rfl rfl
      exact none_stored
    · refine Gating.moves (.fresh (fun s => BootstrapState.voter_idle.idle s) rfl rfl rfl rfl rfl)
        (fun c source => ?_) moves
      exact journal c (source.resolve_left fun h => h)
  | step t _ below ih =>
    exact (ih.marked (Engine.answered_marked _ _)).moves (below.ctx _) (Engine.step_refines _ t _)

/-- Every notarize vote cast in a run has its evidence earlier in the run, and is the first
for its slot. -/
theorem notarize_votes_are_gated {cfg : Config} {bs : BootstrapState} {e : Engine}
    (journal : bs.BelowTop) (h : Run cfg bs Input.BelowTop e) (id : CandidateID)
    (l : List Event) (cast : .cast (notarizeVote id) :: l <:+ e.trace) :
    Evidence cfg l id ∧ ∀ id', id'.slot = id.slot → .cast (notarizeVote id') ∉ l :=
  (h.gating journal).cast id l cast

/-- Whether an event casts the vote. -/
def Event.casts (b : Vote) : Event → Bool
  | .cast a => decide (a = b)
  | _ => false

theorem suffix_of_casts {trace : List Event} {b : Vote}
    (h : trace.head?.any (Event.casts b) = true) : .cast b :: trace.tail <:+ trace := by
  cases trace with
  | nil => cases h
  | cons ev l =>
    simp only [head?_cons, Option.any_some] at h
    unfold Event.casts at h
    split at h
    · cases of_decide_eq_true h
      exact suffix_refl _
    · cases h

theorem Run.soloNotarize (h : Run soloConfig bs admits e) (c : Candidate)
    (harmless : ∀ input, (∀ cert res, input ≠ .certSaved cert res) → admits input) :
    Run soloConfig bs admits (e.soloNotarize c) := by
  exact .step 0 (.step 0 (.step 0 h (harmless _ (by simp))) (harmless _ (by simp)))
    (harmless _ (by simp))

/-- The single validator notarizes a candidate for slot 2 on the block of slot 0. -/
def soloGated : Engine :=
  (Engine.start soloConfig soloParams 0 (soloCertified [notarizeVote ⟨0, 0⟩, skipVote 1])
    []).1.soloNotarize (soloCandidate 2 (parent ⟨0, 0⟩))

theorem notarize_votes_are_gated_solo :
    Evidence soloConfig soloGated.trace.tail ⟨2, 0⟩ ∧
      ∀ id', id'.slot = 2 → .cast (notarizeVote id') ∉ soloGated.trace.tail := by
  have below : (soloCertified [notarizeVote ⟨0, 0⟩, skipVote 1]).BelowTop := by
    simp [BootstrapState.BelowTop, soloCertified, soloCert, notarizeVote, skipVote]
  have run : Run soloConfig _ Input.BelowTop soloGated :=
    (Run.start soloParams 0).soloNotarize _ fun _ other cert res h => (other cert res h).elim
  exact notarize_votes_are_gated below run ⟨2, 0⟩ _ (suffix_of_casts (by decide +kernel))

/-- A journal with a finalization of the last slot between two skips. -/
def lastSlotJournal : BootstrapState :=
  soloCertified [notarizeVote ⟨0, 0⟩, skipVote 1, finalizeVote ⟨lastSlot, 0⟩, skipVote 3]

/-- A candidate for slot 4 on the block of slot 0. -/
def soloUngated : Engine :=
  (Engine.start soloConfig soloParams 0 lastSlotJournal []).1.soloNotarize
    (soloCandidate 4 (parent ⟨0, 0⟩))

/-- Whether a settled candidate has slot 2 between its parent and itself, and the pool no skip
certificate for that slot. -/
def Event.jumpsSlotTwo : Event → Bool
  | .parentSettled c pool =>
    decide (c.parent.nextSlot ≤ 2) && decide (2 < c.id.slot) && (pool.certAt 2 .skip).isNone
  | _ => true

/-- Finalizing the last slot clears the run ends; a later skip then covers slots without one. -/
theorem ungated_after_last_slot_finalized :
    Run soloConfig lastSlotJournal (fun _ => True) soloUngated ∧
      .cast (notarizeVote ⟨4, 0⟩) :: soloUngated.trace.tail <:+ soloUngated.trace ∧
      ¬ Evidence soloConfig soloUngated.trace.tail ⟨4, 0⟩ := by
  refine ⟨(Run.start soloParams 0).soloNotarize _ fun _ _ => trivial,
    suffix_of_casts (by decide +kernel), fun evidence => ?_⟩
  have jumps : soloUngated.trace.tail.all Event.jumpsSlotTwo = true := by decide +kernel
  obtain ⟨c, pool, before, -, settled⟩ := evidence.settled
  have here := all_eq_true.mp jumps _ (settled.event.subset mem_cons_self)
  simp only [Event.jumpsSlotTwo, Bool.and_eq_true, decide_eq_true_eq,
    Option.isNone_iff_eq_none] at here
  obtain ⟨⟨le, lt⟩, absent⟩ := here
  obtain ⟨cert, found, -⟩ := settled.parent.skipped 2 le lt
  rw [absent] at found
  cases found

end Gton.Simplex
