import Gton.Simplex.Recovery

/-!
# The candidate pipeline

A candidate is submitted, waits for its parent, is validated and stored, and only then gets a
notarize vote. What is to be known of a candidate whose parent wait was settled is a parameter
`P`: it is established where the wait is settled and read where the vote is cast.
-/

namespace Gton.Simplex

open List

section

variable (P : View → CandidateID → Prop)

/-- What the pipeline flags of one slot stand for. -/
structure InPipeline (v : View) (s : UInt32) (slot : VoterSlot) : Prop where
  idle : slot.pending = none →
    slot.stored = false ∧ slot.validated = false ∧ slot.validationInFlight = false
  here : ∀ c, slot.pending = some c → c.id.slot = s ∧ .submitted c ∈ v.trace
  stored : ∀ c, slot.pending = some c → slot.stored = true → .stored c.id ∈ v.trace
  validated : ∀ c, slot.pending = some c → slot.validated = true → .validated c.id ∈ v.trace
  checked : v.failed = false → ∀ c, slot.pending = some c →
    slot.validationInFlight = true ∨ slot.validated = true → P v c.id

structure Pipeline (cfg : Config) (v : View) : Prop where
  admitted : ∀ c, .submitted c ∈ v.trace → cfg.Admitted c
  waiting : ∀ c ∈ v.waits, .submitted c ∈ v.trace
  settled : v.failed = false → ∀ c, .onParentWaitDone c .ok ∈ v.queue → P v c.id
  slots : ∀ s, v.voterHorizon ≤ s → InPipeline P v s (v.voter s)

end

variable {P Q : View → CandidateID → Prop} {cfg : Config} {ctx : Ctx} {v w : View}
  {slot slot' : VoterSlot} {s : UInt32}

theorem InPipeline.keep (h : InPipeline P v s slot)
    (failed : w.failed = false → v.failed = false) (trace : v.trace ⊆ w.trace)
    (mono : ∀ id, P v id → P w id) (pending : slot'.pending = slot.pending := by rfl)
    (stored : slot'.stored = slot.stored := by rfl)
    (validated : slot'.validated = slot.validated := by rfl)
    (flying : slot'.validationInFlight = slot.validationInFlight := by rfl) :
    InPipeline P w s slot' where
  idle := by rw [pending, stored, validated, flying]; exact h.idle
  here c := by rw [pending]; exact fun hc => (h.here c hc).imp_right (trace ·)
  stored c := by rw [pending, stored]; exact fun hc hs => trace (h.stored c hc hs)
  validated c := by rw [pending, validated]; exact fun hc hs => trace (h.validated c hc hs)
  checked ok c := by
    rw [pending, flying, validated]
    exact fun hc hs => mono _ (h.checked (failed ok) c hc hs)

theorem InPipeline.imp
    (h : InPipeline P v s slot) (more : ∀ id, P v id → Q v id) : InPipeline Q v s slot :=
  { h with checked := fun ok c hc hs => more _ (h.checked ok c hc hs) }

namespace Pipeline

theorem imp (h : Pipeline P cfg v) (more : ∀ id, P v id → Q v id) : Pipeline Q cfg v :=
  { h with
    settled := fun ok c hc => more _ (h.settled ok c hc)
    slots := fun s live => (h.slots s live).imp more }

/-- Moves that leave waits, queue and voter alone, or shrink them. -/
theorem frame (h : Pipeline P cfg v) (mono : ∀ id, P v id → P w id)
    (failed : w.failed = false → v.failed = false := by exact fun h => h)
    (trace : v.trace ⊆ w.trace := by exact fun _ h => h)
    (submitted : ∀ c, .submitted c ∈ w.trace → .submitted c ∈ v.trace := by exact fun _ h => h)
    (waits : w.waits ⊆ v.waits := by exact fun _ h => h)
    (queue : ∀ c, .onParentWaitDone c .ok ∈ w.queue → .onParentWaitDone c .ok ∈ v.queue := by
      exact fun _ h => h)
    (voterHorizon : v.voterHorizon ≤ w.voterHorizon := by exact UInt32.le_refl _)
    (voter : ∀ s, w.voterHorizon ≤ s → w.voter s = v.voter s := by exact fun _ _ => rfl) :
    Pipeline P cfg w where
  admitted c hc := h.admitted c (submitted c hc)
  waiting c hc := trace (h.waiting c (waits hc))
  settled ok c hc := mono _ (h.settled (failed ok) c (queue c hc))
  slots s live := by
    rw [voter s live]
    exact (h.slots s (UInt32.le_trans voterHorizon live)).keep failed trace mono

/-- A move that writes the voter state of one slot. -/
theorem write (h : Pipeline P cfg v)
    (voter : w.voter = Function.update v.voter s slot) (mono : ∀ id, P v id → P w id)
    (here : InPipeline P w s slot)
    (failed : w.failed = v.failed := by rfl) (trace : v.trace ⊆ w.trace := by exact fun _ h => h)
    (submitted : ∀ c, .submitted c ∈ w.trace → .submitted c ∈ v.trace ∨ cfg.Admitted c := by
      exact fun _ h => .inl h) (waits : w.waits = v.waits := by rfl)
    (queue : w.queue ⊆ v.queue := by exact fun _ h => h)
    (voterHorizon : w.voterHorizon = v.voterHorizon := by rfl) : Pipeline P cfg w where
  admitted c hc := (submitted c hc).elim (h.admitted c) id
  waiting c hc := trace (h.waiting c (waits ▸ hc))
  settled ok c hc := mono _ (h.settled (failed ▸ ok) c (queue hc))
  slots t live := by
    rw [voter]
    by_cases ht : t = s
    · subst ht
      rw [Function.update_self]
      exact here
    · rw [Function.update_of_ne ht]
      exact (h.slots t (voterHorizon ▸ live)).keep (fun ok => failed ▸ ok) trace mono

variable {c : Candidate}

theorem pending_id {id : CandidateID}
    (h : slot.pending.map Candidate.id = some id) (hc : slot.pending = some c) : c.id = id := by
  rw [hc] at h
  exact Option.some.inj h

theorem accept (h : Pipeline P cfg v) {c₀ : Candidate} (admitted : cfg.checkCandidate c₀ = .ok c)
    (live : v.voterHorizon ≤ c.id.slot) (idle : (v.voter c.id.slot).pending = none)
    (mono : ∀ id, P v id → P ((v.setVoter c.id.slot
      { v.voter c.id.slot with pending := some c, storeInFlight := true }).emit (.submitted c))
      id) :
    Pipeline P cfg ((v.setVoter c.id.slot
      { v.voter c.id.slot with pending := some c, storeInFlight := true }).emit
        (.submitted c)) := by
  obtain ⟨stored, validated, flying⟩ := (h.slots _ live).idle idle
  refine h.write rfl mono ?_ rfl (subset_cons_self _ _) fun d hd => ?_
  · refine ⟨fun absent => ?_, fun d hd => ?_, fun d _ hs => ?_, fun d _ hs => ?_,
      fun _ d _ hs => ?_⟩
    · cases absent
    · cases hd
      exact ⟨rfl, mem_cons_self⟩
    · rw [stored] at hs
      cases hs
    · rw [validated] at hs
      cases hs
    · rw [flying, validated] at hs
      rcases hs with hs | hs <;> cases hs
  · rcases mem_cons.mp hd with hd | hd
    · cases hd
      exact .inr (cfg.checkCandidate_admitted admitted)
    · exact .inl hd

/-- One move: `P` only has to be established where a parent wait is settled. -/
theorem move (h : Pipeline P cfg v) (m : Move cfg ctx v w) (mono : ∀ id, P v id → P w id)
    (settle : v.failed = false → ∀ c pool, c ∈ v.waits → v.Matches pool →
      pool.evaluateParentWait c = .done .ok → P (v.settle c pool) c.id) : Pipeline P cfg w := by
  have flagged {s : UInt32} (live : v.voterHorizon ≤ s) {b : Vote} {slot : VoterSlot} {u : View}
      (mono : ∀ id, P v id → P u id) (rule : CastRule s (v.voter s) b slot)
      (failed : u.failed = v.failed) (trace : v.trace ⊆ u.trace) : InPipeline P u s slot := by
    have old := h.slots s live
    cases rule <;> exact old.keep (fun ok => failed ▸ ok) trace mono rfl rfl rfl rfl
  have emitted {ev : Event} (plain : ∀ c, ev ≠ .submitted c) (c : Candidate)
      (hc : .submitted c ∈ ev :: v.trace) : .submitted c ∈ v.trace :=
    (mem_cons.mp hc).resolve_left fun e => plain c e.symm
  have grow {ev : Event} : v.trace ⊆ ev :: v.trace := subset_cons_self _ _
  cases m with
  | quiet q =>
    obtain ⟨l, plain, trace⟩ := q.trace
    refine h.frame mono (fun ok => ?_) (fun ev hev => ?_) (fun c hc => ?_) q.waits
      (fun c hc => (q.queue _ hc).resolve_right (by simp [Deferred.idle]))
      (by rw [q.voterHorizon]; exact UInt32.le_refl _) fun s _ => by rw [q.voter]
    · by_contra dead
      rw [q.failed (by simpa using dead)] at ok
      cases ok
    · rw [trace]
      exact mem_append_right l hev
    · rw [trace] at hc
      refine (mem_append.mp hc).resolve_left fun hl => ?_
      cases plain _ hl
  | begin => exact h.frame mono
  | cast rule live =>
    exact h.write rfl mono (flagged live mono rule rfl grow) rfl grow
      fun c hc => .inl (emitted (by simp) c hc)
  | flag rule live => exact h.write rfl mono (flagged live mono rule rfl fun _ h => h)
  | observe queued live =>
    refine h.write rfl mono ((h.slots _ live).keep (fun ok => ok) (fun _ h => h) mono) rfl
      (fun _ h => h) (fun c hc => .inl hc) rfl ?_
    rw [queued]
    exact subset_cons_self _ _
  | pruneVoter queued =>
    refine h.frame mono (fun ok => ok) (fun _ h => h) (fun _ h => h) (fun _ h => h) (fun c hc => ?_)
      (View.le_raise _ _) fun s live => View.voter_pruneVoter live
    rw [queued]
    exact mem_cons_of_mem _ hc
  | accept admitted live fresh idle => exact h.accept admitted live idle mono
  | wait submitted =>
    refine ⟨h.admitted, fun c hc => ?_, fun ok c hc => mono _ (h.settled ok c hc),
      fun s live => (h.slots s live).keep (fun ok => ok) (fun _ h => h) mono⟩
    rcases mem_append.mp hc with hc | hc
    · exact h.waiting c hc
    · rw [mem_singleton.mp hc]
      exact submitted
  | settle waiting same ok =>
    refine ⟨fun c hc => h.admitted c (emitted (by simp) c hc), fun c hc => grow (h.waiting c hc),
      fun alive c hc => ?_,
      fun s live => (h.slots s live).keep (fun ok => ok) grow mono⟩
    rcases mem_append.mp hc with hc | hc
    · exact mono _ (h.settled alive c hc)
    · cases mem_singleton.mp hc
      exact settle alive _ _ waiting same ok
  | parentDone queued live pending =>
    have old := h.slots _ live
    refine h.write rfl mono ⟨fun absent => ?_, old.here, old.stored, old.validated,
      fun alive d hd _ => ?_⟩ rfl (fun _ h => h) (fun c hc => .inl hc) rfl ?_
    · rw [show (v.voter _).pending = none from absent] at pending
      cases pending
    · rw [pending_id pending hd]
      exact mono _ (h.settled alive _ (by rw [queued]; exact mem_cons_self))
    · rw [queued]
      exact subset_cons_self _ _
  | validated live pending flying =>
    have old := h.slots _ live
    refine h.write rfl mono ⟨fun absent => ?_, fun c hc => (old.here c hc).imp_right (grow ·),
      fun c hc hs => grow (old.stored c hc hs), fun c hc _ => ?_, fun alive c hc _ => ?_⟩ rfl grow
      fun c hc => .inl (emitted (by simp) c hc)
    · rw [show (v.voter _).pending = none from absent] at pending
      cases pending
    · rw [pending_id pending hc]
      exact mem_cons_self
    · exact mono _ (old.checked alive c hc (.inl flying))
  | stored live pending =>
    have old := h.slots _ live
    refine h.write rfl mono ⟨fun absent => ?_, fun c hc => (old.here c hc).imp_right (grow ·),
      fun c hc _ => ?_, fun c hc hs => grow (old.validated c hc hs),
      fun alive c hc hs => mono _ (old.checked alive c hc hs)⟩ rfl grow
      fun c hc => .inl (emitted (by simp) c hc)
    · rw [show (v.voter _).pending = none from absent] at pending
      cases pending
    · rw [pending_id pending hc]
      exact mem_cons_self
  | dropped live flying =>
    have old := h.slots _ live
    refine h.write rfl mono ⟨fun absent => ?_, old.here, old.stored, old.validated,
      fun alive c hc hs => mono _ (old.checked alive c hc (hs.imp_left flying))⟩
    obtain ⟨stored, validated, idle⟩ := old.idle absent
    refine ⟨stored, validated, ?_⟩
    by_contra set
    rw [flying (by simpa using set)] at idle
    cases idle
  | sign => exact h.frame mono (fun ok => ok) grow (emitted (by simp))
  | apply =>
    refine h.frame mono (fun ok => ok) (fun ev hev => ?_) (fun c hc => ?_)
    · unfold View.enter
      split
      · exact grow hev
      · exact hev
    · unfold View.enter at hc
      split at hc
      · exact emitted (by simp) c hc
      · exact hc
  | conflict => exact h.frame mono (fun ok => by cases ok)
  | send | resend => exact h.frame mono (fun ok => ok) grow (emitted (by simp))
  | standstill | buffer | save | extract => exact h.frame mono
  | store _ _ _ stored =>
    cases stored with
    | notar =>
      exact h.frame mono (fun ok => ok) grow (emitted (by simp)) (fun _ h => h)
        fun c hc => (mem_append.mp hc).resolve_right (by simp)
    | skip => exact h.frame mono (fun ok => ok) grow (emitted (by simp))
    | final =>
      exact h.frame mono (fun ok => ok) grow (emitted (by simp)) (fun _ h => h)
        fun c hc => (mem_append.mp hc).resolve_right (by simp)
    | failed => exact h.frame mono (fun ok => by cases ok) grow (emitted (by simp))

theorem recovered {bs : BootstrapState} {trace : List Event}
    (admitted : ∀ c, .submitted c ∈ trace → cfg.Admitted c) :
    Pipeline P cfg (View.recovered cfg bs trace) where
  admitted := admitted
  waiting := by simp [View.recovered]
  settled := by simp [View.recovered]
  slots s _ := by
    have idle : ((View.recovered cfg bs trace).voter s).Idle := BootstrapState.voter_idle.idle s
    exact
      { idle := fun _ => ⟨idle.stored, idle.validated, idle.flying⟩
        here := by simp [idle.pending]
        stored := by simp [idle.pending]
        validated := by simp [idle.pending]
        checked := by simp [idle.pending] }

end Pipeline

end Gton.Simplex
