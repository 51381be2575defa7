import Gton.Simplex.Gating
import Gton.Simplex.Windows

/-!
# The skip-run index

Run ends are inserted, moved and erased as certificates arrive in any order. In every state the
index knows where each run of skipped slots ends, so the search for a run end never fails. The
slot after the last one is slot 0; certificates of the last slot are left out.
-/

namespace Gton.Simplex

namespace Engine

variable {cfg : Config} {g : Grant} {b : UInt32} {e e' : Engine}

/-- The index is exact as long as the engine runs, and no search for a run end has failed. -/
structure Unbroken (b : UInt32) (e : Engine) : Prop where
  good : e.failed = false → e.pool.frontier.Good b
  calm : e.fatalErr ≠ some .noRunEnd

theorem Unbroken.served (h : Unbroken b e) (served : Serves cfg b e e') : Unbroken b e' where
  good ok := (served.good ok).2
  calm stuck := (served.found stuck).elim h.calm fun bad => bad h.good

theorem Unbroken.tick (h : Unbroken b e) (small : ∀ c, g.cert c → c.vote.slot < b)
    (t : Tick cfg g e e') : Unbroken b e' := by
  rcases Apart.tick t with aside | ⟨cert, res, ok, held, rfl⟩ | ⟨cert, slot, ok, held, here, rfl⟩ |
    ⟨-, rfl⟩
  · have served : Serves cfg b e e' := aside.serves h.good
    exact h.served served
  · exact h.served (finishCertificateSave_served (h.good ok) (small _ held) ok)
  · exact h.served (storeSavedCertificate_served (h.good ok) (small _ held) ok here)
  · exact h.served (advancePresent_served h.good)

theorem Unbroken.ticks (h : Unbroken b e) (small : ∀ c, g.cert c → c.vote.slot < b)
    (t : Ticks cfg g e e') : Unbroken b e' :=
  t.keep (fun h t => h.tick small t) h

/-! ## Engines whose journal was rejected -/

/-- Nothing was started and nothing is in flight: the pool stays as it is. -/
structure Unstarted (p : Pool) (e : Engine) : Prop where
  pool : e.pool = p
  started : e.started = false
  fatalErr : e.fatalErr = none
  voteSaves : e.journal.voteSaves = []
  certSaves : e.journal.certSaves = []
  windowSaves : e.journal.windowSaves = 0

theorem Unstarted.step {p : Pool} (h : Unstarted p e) (t : Time) (input : Input) :
    Unstarted p (e.step cfg t input) := by
  have clock : Unstarted p { e with clock := t } := { h with }
  have idle (e : Engine) (h : Unstarted p e) (action : Engine → Engine) :
      Unstarted p (e.run cfg action) := by
    unfold run
    rw [if_pos (by simp [h.started])]
    exact h
  unfold Engine.step
  generalize ({ e with clock := t } : Engine) = e at clock
  cases input with
  | message | flushVerify | submitCandidate | advance => exact idle e clock _
  | precheckBroadcast slot id checked =>
    dsimp only
    unfold precheckCandidateBroadcast
    rw [if_pos (by simp [clock.started])]
    exact clock
  | storeDone id ok =>
    dsimp only
    split
    · have used : Unstarted p { e with storeCallbacks := e.storeCallbacks.erase id } :=
        { clock with }
      exact idle _ used _
    · exact clock
  | validateDone id accepted =>
    dsimp only
    split
    · have used : Unstarted p { e with validateCallbacks := e.validateCallbacks.erase id } :=
        { clock with }
      exact idle _ used _
    · exact clock
  | voteSaved v ok =>
    dsimp only
    unfold voteSaved
    rw [if_neg (by simp [clock.voteSaves])]
    exact clock
  | certSaved cert res =>
    unfold certSaved
    dsimp only
    rw [if_neg (by simp [clock.certSaves])]
    exact clock
  | windowSaved ok =>
    dsimp only
    unfold windowSaved
    rw [if_pos clock.windowSaves]
    exact clock
  | updateParams | stop => exact { clock with }

end Engine

/-! ## Runs -/

/-- An exact skip-run index: ascending, with the end of the run of every skipped slot. -/
structure Pool.Indexed (p : Pool) : Prop where
  ascending : Ascending p.skipRuns
  ends : ∀ j, p.slots.firstNonFinalized ≤ j → p.certAt j .skip ≠ none →
    ∃ n, lowerBound p.skipRuns j = some n ∧ p.frontier.Next j n
  next : ∀ i, i < lastSlot → p.slots.firstNonFinalized ≤ i + 1 →
    ∃ n, p.nextNonSkippedSlotAfter i = .slot n ∧ p.frontier.Next i n

theorem Frontier.Good.indexed {p : Pool} (good : p.frontier.Good lastSlot) : p.Indexed where
  ascending := good.ended.ascending
  ends _ _ skipped := good.ended.lowerBound good.founded.toRooted skipped
  next _ small live :=
    Pool.next_spec good.founded.toRooted good.ended small live (fun _ _ => .rfl) rfl

theorem Engine.new_indexed (params : Params) (clock : Time) (bs : BootstrapState) :
    (new params clock bs []).pool.Indexed := by
  have certs (s : UInt32) : (new params clock bs []).pool.certAt s .skip = none := rfl
  refine ⟨List.Pairwise.nil, fun j _ skipped => absurd (certs j) skipped, fun i small live => ?_⟩
  refine ⟨i + 1, ?_, by grind [lastSlot], fun j above below => by grind, fun skipped => ?_⟩
  · rfl
  · exact skipped (certs (i + 1))

variable {bs : BootstrapState} {cfg : Config} {e : Engine}

theorem Run.unbroken (below : ∀ c ∈ bs.certificates, c.vote.slot < lastSlot)
    (h : Run cfg bs (Input.CertsBelow lastSlot) e) :
    (∃ params clock, e.Unstarted (Engine.new params clock bs []).pool) ∨ e.Unbroken lastSlot := by
  induction h with
  | start params clock =>
    rcases Engine.start_ticks cfg params clock bs [] with rejected | ⟨-, ticks⟩
    · rw [rejected]
      exact .inl ⟨params, clock, ⟨rfl, rfl, rfl, rfl, rfl, rfl⟩⟩
    · have prepared :
          Engine.Replaying lastSlot ((Engine.new params clock bs []).prepare cfg bs.ourVotes) :=
        Engine.prepare_replaying (UInt32.le_refl _) params clock bs
      refine .inr (Engine.Unbroken.ticks ⟨fun _ => prepared.good, ?_⟩ below ticks)
      unfold Engine.prepare
      split <;> simp [Engine.addAvailableBase, Engine.bootstrapVoter, Engine.new]
  | step t _ admitted ih =>
    rcases ih with ⟨params, clock, idle⟩ | unbroken
    · exact .inl ⟨params, clock, idle.step t _⟩
    · refine .inr (unbroken.ticks ?_ (Engine.step_ticks _ t _))
      rintro c ⟨res, rfl, -⟩
      exact admitted c res rfl

/-- In every state of a run the index is exact while the engine has not failed, and the search
for a run end never fails. -/
theorem skip_runs_exact {cfg : Config} {bs : BootstrapState} {e : Engine}
    (below : ∀ c ∈ bs.certificates, c.vote.slot < lastSlot)
    (h : Run cfg bs (Input.CertsBelow lastSlot) e) :
    (e.failed = false → e.pool.Indexed) ∧ e.fatalErr ≠ some .noRunEnd := by
  rcases h.unbroken below with ⟨params, clock, idle⟩ | unbroken
  · refine ⟨fun _ => ?_, by simp [idle.fatalErr]⟩
    rw [idle.pool]
    exact Engine.new_indexed params clock bs
  · exact ⟨fun ok => (unbroken.good ok).indexed, unbroken.calm⟩

/-- In a journal with a skip of slot 3 the run ends at slot 4. -/
theorem skip_runs_exact_solo :
    lowerBound (Engine.start soloConfig soloParams 0 soloJournal []).1.pool.skipRuns 3 = some 4 ∧
      (Engine.start soloConfig soloParams 0 soloJournal []).1.pool.Indexed := by
  have run : Run soloConfig soloJournal (Input.CertsBelow lastSlot)
      (Engine.start soloConfig soloParams 0 soloJournal []).1 := .start soloParams 0
  exact ⟨by decide +kernel, (skip_runs_exact (by decide +kernel) run).1 (by decide +kernel)⟩

/-- A journal with a skip of the last slot, and then certificates `more`. -/
def lastSkipped (more : List Vote) : BootstrapState := soloCertified (skipVote lastSlot :: more)

/-- The run of the last slot ends at slot 0, where no search from the last slot finds it; a
notarization of the slot before then fails the session. -/
theorem last_slot_skip_has_no_run_end :
    Run soloConfig (lastSkipped []) (fun _ => True)
        (Engine.start soloConfig soloParams 0 (lastSkipped []) []).1 ∧
      (Engine.start soloConfig soloParams 0 (lastSkipped []) []).1.failed = false ∧
      (Engine.start soloConfig soloParams 0 (lastSkipped []) []).1.pool.certAt lastSlot .skip ≠
      none ∧
      lowerBound (Engine.start soloConfig soloParams 0 (lastSkipped [])
        []).1.pool.skipRuns lastSlot =
        none ∧
      Run soloConfig (lastSkipped [notarizeVote ⟨lastSlot - 1, 0⟩]) (fun _ => True)
        (Engine.start soloConfig soloParams 0
          (lastSkipped [notarizeVote ⟨lastSlot - 1, 0⟩]) []).1 ∧
      (Engine.start soloConfig soloParams 0
        (lastSkipped [notarizeVote ⟨lastSlot - 1, 0⟩]) []).1.fatalErr = some .noRunEnd := by
  exact ⟨.start soloParams 0, by decide +kernel, by decide +kernel, by decide +kernel,
    .start soloParams 0, by decide +kernel⟩

end Gton.Simplex
