import Gton.Simplex.Frontier
import Gton.Simplex.Walk

/-!
# What moves the frontier and which windows are announced

Only a stored certificate changes the frontier of the pool, and only the step that stores it
announces a window. Everything else an engine does is `Aside`.
-/

namespace Gton.Simplex

variable {p : Pool} {s b : UInt32} {slot : PoolSlot}

theorem Pool.certByKind_of_get?
    (here : p.slots.get? s = some slot) : slot.certByKind = p.certAt s := by
  funext k
  simp [Pool.certAt, here]

theorem Pool.availableBase_of_get?
    (here : p.slots.get? s = some slot) : slot.availableBase = p.base s := by
  simp [Pool.base, here]

theorem Pool.evaluateParentWait_ne_noRunEnd (good : p.frontier.Good b)
    (c : Candidate) : p.evaluateParentWait c ≠ .noRunEnd := by
  have skips (next slot : UInt32) : p.evaluateSkips next slot ≠ .noRunEnd := by
    unfold Pool.evaluateSkips
    split
    · simp
    · split
      · simp
      next cert found =>
        have skipped : p.frontier.Skipped next := by
          intro absent
          obtain ⟨slot, here, skip⟩ := Option.bind_eq_some_iff.mp found
          change p.certAt next .skip = none at absent
          rw [← Pool.certByKind_of_get? here] at absent
          exact absurd (skip.symm.trans absent) (by simp)
        obtain ⟨n, bound, -⟩ := good.ended.lowerBound good.founded.toRooted skipped
        change lowerBound p.skipRuns next = some n at bound
        rw [bound]
        dsimp only
        split <;> simp
  unfold Pool.evaluateParentWait
  dsimp only
  repeat' split
  all_goals first | exact skips _ _ | simp

namespace Engine

variable {e : Engine}

theorem frontier_setSlot (slot : PoolSlot) (live : e.pool.slots.firstNonFinalized ≤ s) :
    (e.setSlot s slot).pool.frontier = { e.pool.frontier with
      certs := Function.update e.pool.certAt s slot.certByKind
      base := Function.update e.pool.base s slot.availableBase } := by
  have certs : (e.setSlot s slot).pool.certAt =
      Function.update e.pool.certAt s slot.certByKind := by
    change PoolSlot.certByKind ∘ (e.setSlot s slot).pool.slotAt = _
    rw [slotAt_set live, Function.comp_update]
    rfl
  have bases (p : Pool) : p.base = PoolSlot.availableBase ∘ p.slotAt := by
    funext j
    change (p.slots.get? j).bind _ = ((p.slots.get? j).getD default).availableBase
    cases p.slots.get? j <;> rfl
  unfold Pool.frontier
  rw [certs, bases, bases, slotAt_set live, Function.comp_update]
  rfl

/-- Nothing happens to the frontier and no window is announced; a failure drops queued windows. -/
structure Aside (e e' : Engine) : Prop where
  frontier : e'.pool.frontier = e.pool.frontier := by rfl
  cursor : e'.pool.firstNonAnnouncedWindow = e.pool.firstNonAnnouncedWindow := by rfl
  windows : e'.windows.Sublist e.windows := by exact .refl _
  failed : e.failed = true → e'.failed = true := by exact fun h => h
  errors : ∀ err, e'.fatalErr = some err → e.fatalErr = some err ∨ err.isPresent = false := by
    exact fun _ h => .inl h

/-- A search for a run end only fails on a pool that is not good. -/
structure Apart (e e' : Engine) : Prop extends Aside e e' where
  found : e'.fatalErr = some .noRunEnd → e.fatalErr = some .noRunEnd ∨
    e.failed = false ∧ ∀ b, ¬ e.pool.frontier.Good b := by
    exact fun h => .inl h

theorem Aside.alive {e' : Engine} (h : Aside e e') (ok : e'.failed = false) : e.failed = false := by
  by_contra dead
  rw [h.failed (by simpa using dead)] at ok
  cases ok

namespace Apart

variable {e e' e'' : Engine} {cfg : Config} {idx : Nat} {g : Grant}

theorem refl (e : Engine) : Apart e e := {}

theorem trans (h : Apart e e') (h' : Apart e' e'') : Apart e e'' where
  frontier := h'.frontier.trans h.frontier
  cursor := h'.cursor.trans h.cursor
  windows := h'.windows.trans h.windows
  failed hf := h'.failed (h.failed hf)
  errors err herr := (h'.errors err herr).elim (h.errors err) .inr
  found stuck := by
    rcases h'.found stuck with earlier | ⟨ok, bad⟩
    · exact h.found earlier
    · exact .inr ⟨h.alive ok, h.frontier ▸ bad⟩

theorem emit {ev : Event} (plain : ev.window? = none) : Apart e (e.emit ev) :=
  { refl e with windows := by simp [Engine.windows, Engine.emit, plain] }

theorem enqueue {d : Deferred} (plain : d.window? = none) : Apart e (e.enqueue d) :=
  { refl e with windows := by simp [Engine.windows, Engine.enqueue, plain] }

theorem fatal {err : FatalError} (harmless : err.isPresent = false) (other : err ≠ .noRunEnd) :
    Apart e (e.fatal err) := by
  unfold Engine.fatal
  split
  · exact refl e
  · exact
      { refl e with
        windows := by simp [Engine.windows, Deferred.window?]
        failed := fun _ => rfl
        errors := by
          rintro _ ⟨rfl⟩
          exact .inr harmless
        found := by
          rintro ⟨rfl⟩
          exact absurd rfl other }

theorem reportMisbehavior {m : Misbehavior} : Apart e (e.reportMisbehavior idx m) :=
  enqueue rfl

theorem setSlot {slot' : PoolSlot} (here : e.pool.slots.get? s = some slot)
    (certs : slot'.certByKind = slot.certByKind)
    (base : slot'.availableBase = slot.availableBase) : Apart e (e.setSlot s slot') := by
  have frontier : (e.setSlot s slot').pool.frontier = e.pool.frontier := by
    rw [frontier_setSlot _ (SlotMap.le_of_get? here), certs, base, Pool.certByKind_of_get? here,
      Pool.availableBase_of_get? here, Function.update_eq_self, Function.update_eq_self]
    rfl
  exact { refl e with frontier }

theorem settles (h : Settles e e') : Apart e e' where
  frontier := congrArg Pool.frontier h.pool
  cursor := congrArg Pool.firstNonAnnouncedWindow h.pool
  windows := h.windows
  failed := h.failed
  errors err herr := (h.errors err herr).imp_right fun ⟨_, stuck, _⟩ => stuck ▸ rfl
  found stuck := by
    refine (h.errors _ stuck).imp_right ?_
    rintro ⟨ok, -, c, missed⟩
    exact ⟨ok, fun b good => absurd missed (Pool.evaluateParentWait_ne_noRunEnd good c)⟩

/-! ### Votes and certificates -/

theorem handleCertificate {cert : Certificate} : Apart e (e.handleCertificate cert) := by
  apply handleCertificate_keep (refl e)
  intro slot here _
  obtain ⟨-, -, certs, base⟩ := slot.setSaving_keeps cert.vote.kind true
  exact (setSlot here certs base).trans { refl _ with }

theorem applyVote {v : Vote} {sig : Signature} {tolerate : Bool} :
    Apart e (e.applyVote cfg idx v sig tolerate).1 := by
  apply applyVote_keep (P := Apart e)
  · exact refl e
  · exact fun _ => fatal rfl (by simp)
  · exact fun _ _ _ _ => reportMisbehavior
  · exact emit rfl
  · intro e₁ slot vv aside here _
    have kept := PoolSlot.addWeight_keeps
      { slot with votes := Function.update slot.votes idx vv } v (cfg.weight idx)
    exact aside.trans (setSlot here kept.2.1 kept.2.2.2)
  · intro e₁ slot aside _ _
    exact aside.trans handleCertificate

/-! ### Ticks -/

theorem stop : Apart e e.stop :=
  { refl e with
    windows := by simp [Engine.windows, Engine.stop]
    failed := fun _ => by simp [Engine.stop, Engine.failed] }

theorem plain (h : Plain e e') : Apart e e' where
  frontier := congrArg Pool.frontier h.pool
  cursor := congrArg Pool.firstNonAnnouncedWindow h.pool
  windows := h.windows ▸ .refl _
  failed dead := h.failed.trans dead
  errors _ herr := .inl (h.fatalErr ▸ herr)
  found stuck := .inl (h.fatalErr ▸ stuck)

/-- Every tick that stores no certificate and does not begin the session. -/
theorem tick (h : Tick cfg g e e') :
    Apart e e' ∨ (∃ cert res, e.failed = false ∧ g.cert cert ∧
        e' = e.finishCertificateSave cfg cert res) ∨
      (∃ cert slot, e.failed = false ∧ g.cert cert ∧ e.pool.slots.get? cert.vote.slot = some slot ∧
        e' = e.storeSavedCertificate cfg slot cert) ∨ g.opening ∧ e' = e.advancePresent cfg := by
  cases h with
  | plain h => exact .inl (plain h)
  | fatal harmless other => exact .inl (fatal harmless other)
  | stop => exact .inl stop
  | receive => exact .inl { refl e with }
  | cast => exact .inl { refl e with }
  | apply => exact .inl applyVote
  | save => exact .inl handleCertificate
  | accept => exact .inl (settles (.acceptCandidate _ _))
  | @moveOn c out ds _ queue =>
    have popped : Apart e { e with pending := ds } := by
      refine { refl e with windows := ?_ }
      unfold Engine.windows
      rw [queue]
      exact .refl _
    exact .inl (popped.trans (settles (.onParentWaitDone _ _ _)))
  | finish res ok held => exact .inr (.inl ⟨_, res, ok, held, rfl⟩)
  | store ok held here => exact .inr (.inr (.inl ⟨_, _, ok, held, here, rfl⟩))
  | advance opening => exact .inr (.inr (.inr ⟨opening, rfl⟩))

theorem ticks (unheld : ∀ c, ¬ g.cert c) (closed : ¬ g.opening)
    (h : Ticks cfg g e e') : Apart e e' := by
  induction h with
  | refl => exact refl e
  | tail _ one ih =>
    rcases tick one with aside | ⟨c, _, _, held, -⟩ | ⟨c, _, _, held, -⟩ | ⟨opening, -⟩
    · exact ih.trans aside
    · exact absurd held (unheld c)
    · exact absurd held (unheld c)
    · exact absurd opening closed

/-- Any vote may be applied, no certificate stored. -/
def votesOnly : Grant :=
  ⟨fun _ => True, fun _ => True, fun _ => True, fun _ => True, fun _ => False, False, True, True⟩

theorem votes (h : Ticks cfg votesOnly e e') : Apart e e' := ticks (fun _ h => h) (fun h => h) h

theorem drainPending : Apart e (e.drainPending cfg) := votes (drainPending_ticks e trivial)

theorem castStartupWindowSkips : Apart e (e.castStartupWindowSkips cfg) :=
  votes (castStartupWindowSkips_ticks e)

theorem replayVotes (l : List Vote) (e : Engine) : Apart e (l.foldl (replayVote cfg) e) :=
  votes (.foldl l (fun e _ _ => replayVote_ticks e trivial) e)

theorem step {t : Time} {input : Input} (other : ∀ cert res, input ≠ .certSaved cert res) :
    Apart e (e.step cfg t input) := by
  have unheld (c : Certificate) : ¬ (e.hands input).cert c := by
    rintro ⟨res, eq, -⟩
    exact other c res eq
  exact ticks unheld (fun h => h) (step_ticks e t input)

end Apart

end Engine

/-! ## Reading the frontier -/

theorem Pool.next_spec {f : Frontier} {i : UInt32} (rooted : f.Rooted b)
    (ended : f.Ended) (small : i < b) (live : p.slots.firstNonFinalized ≤ i + 1)
    (skips : ∀ s, i < s → (p.frontier.Skipped s ↔ f.Skipped s)) (runs : p.skipRuns = f.runs) :
    ∃ n, p.nextNonSkippedSlotAfter i = .slot n ∧ f.Next i n := by
  have up := rooted.lt_succ small
  have here := SlotMap.get?_of_le live
  have skip := congrFun (p.certByKind_of_get? here) .skip
  have same : f.Skipped (i + 1) ↔ p.certAt (i + 1) .skip ≠ none := (skips _ up).symm
  unfold Pool.nextNonSkippedSlotAfter
  rw [here]
  dsimp only
  split
  next free =>
    refine ⟨i + 1, rfl, up, fun j above below => by grind, fun skipped => ?_⟩
    exact same.mp skipped (skip.symm.trans free)
  next cert found =>
    have skipped : f.Skipped (i + 1) := by
      rw [same, ← skip]
      intro absent
      rw [show PoolSlot.skipCert _ = none from absent] at found
      cases found
    obtain ⟨n, bound, next⟩ := ended.lowerBound rooted skipped
    rw [runs, bound]
    exact ⟨n, rfl, next.pred skipped up⟩

theorem Pool.presentLoop_spec (rooted : p.frontier.Rooted b) (n : Nat)
    (now : UInt32) (live : p.slots.firstNonFinalized ≤ now) (below : now ≤ b)
    (fuel : b.toNat - now.toNat < n)
    (settled : ∀ j, p.slots.firstNonFinalized ≤ j → j < now → p.frontier.Settled j) :
    (p.presentLoop n now).2 = true ∧ ¬ p.frontier.Settled (p.presentLoop n now).1 ∧
      ({ p.frontier with now := (p.presentLoop n now).1 } : Frontier).Present b := by
  induction n generalizing now with
  | zero => omega
  | succ n ih =>
    have here := SlotMap.get?_of_le live
    have certs := p.certByKind_of_get? here
    unfold Pool.presentLoop
    rw [here]
    dsimp only
    have notar := congrFun certs .notarize
    have skip := congrFun certs .skip
    change PoolSlot.notarCert _ = _ at notar
    change PoolSlot.skipCert _ = _ at skip
    rw [notar, skip]
    split
    next done =>
      have here : p.frontier.Settled now := by
        rcases Bool.or_eq_true_iff.mp done with h | h
        · exact .inl (by rintro e; rw [show p.certAt now .notarize = none from e] at h; cases h)
        · exact .inr (by rintro e; rw [show p.certAt now .skip = none from e] at h; cases h)
      have small : now < b := here.elim (fun h => (rooted.live _ _ h).2) fun h =>
        (rooted.live _ _ h).2
      have up := rooted.toNat_succ small
      have lt := UInt32.lt_iff_toNat_lt.mp small
      refine ih (now + 1) (by grind) (by grind) (by omega) fun j from_ lower => ?_
      by_cases at_ : j = now
      · rw [at_]
        exact here
      · exact settled j from_ (by grind)
    next open_ =>
      refine ⟨rfl, ?_, live, below, settled⟩
      rintro (h | h)
      · exact open_ (Bool.or_eq_true_iff.mpr (.inl (Option.isSome_iff_ne_none.mpr h)))
      · exact open_ (Bool.or_eq_true_iff.mpr (.inr (Option.isSome_iff_ne_none.mpr h)))

end Gton.Simplex
