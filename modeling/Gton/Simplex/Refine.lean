import Gton.Simplex.Moves
import Gton.Simplex.Records

/-!
# The engine's functions are sequences of moves

One lemma per function of the pool and per step of the voter. The invariants are about views and
never look into these functions.
-/

namespace Gton.Simplex

open List Function SlotMap

def FatalError.isConflict : FatalError → Bool
  | .conflictingVotes _ => true
  | _ => false

def Pool.slotAt (p : Pool) (s : UInt32) : PoolSlot := (p.slots.get? s).getD default

theorem Pool.slotAt_of_get? {p : Pool} {s : UInt32} {slot : PoolSlot}
    (h : p.slots.get? s = some slot) : p.slotAt s = slot := by
  rw [slotAt, h, Option.getD_some]

def Engine.view (e : Engine) : View :=
  { failed := e.failed
    conflicted := e.fatalErr.any FatalError.isConflict
    started := e.started
    firstNonAnnouncedWindow := e.pool.firstNonAnnouncedWindow
    horizon := e.pool.slots.firstNonFinalized
    votes := fun s => (e.pool.slotAt s).votes
    certs := fun s => (e.pool.slotAt s).certByKind
    saving := fun s => (e.pool.slotAt s).savingByKind
    weight := fun s => (e.pool.slotAt s).weightOf
    lastFinalized := e.pool.lastFinalized
    skipRuns := e.pool.skipRuns
    waits := e.parentWaits
    drain := (e.drain.map Drain.msgs).getD []
    voterHorizon := e.voter.slots.firstNonFinalized
    voter := fun s => (e.voter.slots.get? s).getD default
    queue := e.pending
    inbox := e.pendingVerify
    voteLog := e.journal.votes
    certLog := e.journal.certs
    voteSaves := e.journal.voteSaves
    certSaves := e.journal.certSaves
    trace := e.trace }

def Refines (cfg : Config) (ctx : Ctx) (e e' : Engine) : Prop := Moves cfg ctx e.view e'.view

namespace Refines

variable {cfg : Config} {ctx : Ctx} {e e' e'' : Engine}

theorem refl : Refines cfg ctx e e := Relation.ReflTransGen.refl

theorem trans (h : Refines cfg ctx e e') (h' : Refines cfg ctx e' e'') : Refines cfg ctx e e'' :=
  Relation.ReflTransGen.trans h h'

theorem move (h : Move cfg ctx e.view e'.view) : Refines cfg ctx e e' :=
  Relation.ReflTransGen.single h

theorem quiet (h : e.view.Quiet e'.view) : Refines cfg ctx e e' := move (.quiet h)

theorem foldl {α : Type} {f : Engine → α → Engine} (l : List α)
    (step : ∀ e, ∀ a ∈ l, Refines cfg ctx e (f e a)) (e : Engine) :
    Refines cfg ctx e (l.foldl f e) := by
  induction l generalizing e with
  | nil => exact refl
  | cons a l ih =>
    exact (step e a mem_cons_self).trans
      (ih (fun e b hb => step e b (mem_cons_of_mem a hb)) (f e a))

end Refines

theorem View.Quiet.refl (v : View) : v.Quiet v := {}

theorem View.Quiet.trans {u v w : View} (h : u.Quiet v) (h' : v.Quiet w) : u.Quiet w where
  failed hf := h'.failed (h.failed hf)
  conflicted hc := h.conflicted (h'.conflicted hc)
  started := h'.started.trans h.started
  window hw := (h'.window hw).trans (h.window (h'.started ▸ hw))
  horizon := h'.horizon.trans h.horizon
  votes := h'.votes.trans h.votes
  certs := h'.certs.trans h.certs
  saving := h'.saving.trans h.saving
  weight := h'.weight.trans h.weight
  lastFinalized := h'.lastFinalized.trans h.lastFinalized
  skipRuns := h'.skipRuns.trans h.skipRuns
  waits := List.Subset.trans h'.waits h.waits
  drain := List.Subset.trans h'.drain h.drain
  voterHorizon := h'.voterHorizon.trans h.voterHorizon
  voter := h'.voter.trans h.voter
  queue d hd := (h'.queue d hd).elim (h.queue d) .inr
  inbox := List.Subset.trans h'.inbox h.inbox
  voteLog := h'.voteLog.trans h.voteLog
  certLog := h'.certLog.trans h.certLog
  voteSaves := List.Subset.trans h'.voteSaves h.voteSaves
  certSaves := List.Subset.trans h'.certSaves h.certSaves
  trace := by
    obtain ⟨l, hl, e⟩ := h.trace
    obtain ⟨l', hl', e'⟩ := h'.trace
    refine ⟨l' ++ l, ?_, by rw [e', e, append_assoc]⟩
    intro ev hev
    exact (mem_append.mp hev).elim (hl' ev) (hl ev)

theorem View.Quiet.sweep {v w : View} (h : v.Quiet w) (k : UInt32) :
    View.Quiet { v with skipRuns := eraseUpTo v.skipRuns k, drain := [] }
      { w with skipRuns := eraseUpTo w.skipRuns k, drain := [] } :=
  { h with
    skipRuns := congrArg (eraseUpTo · k) h.skipRuns
    drain := List.Subset.refl [] }

/-! ## Views of the primitive updates -/

namespace Engine

variable {cfg : Config} {ctx : Ctx} {e : Engine} {slot : PoolSlot} {cert : Certificate} {b : Vote}
  {s : UInt32} {err : FatalError} {d : Deferred} {rest : List Deferred} {c : Candidate} {i : Nat}
  {sig : Signature} {tolerate : Bool}

theorem slotAt_set (live : e.pool.slots.firstNonFinalized ≤ s) :
    (e.setSlot s slot).pool.slotAt = Function.update e.pool.slotAt s slot := by
  funext j
  unfold Pool.slotAt setSlot
  by_cases hj : j = s
  · subst hj
    simp [get?_set_self live]
  · simp [get?_set_ne hj, update_of_ne hj]

theorem view_setSlot (slot : PoolSlot) (live : e.pool.slots.firstNonFinalized ≤ s) :
    (e.setSlot s slot).view = { e.view with
      votes := Function.update e.view.votes s slot.votes
      certs := Function.update e.view.certs s slot.certByKind
      saving := Function.update e.view.saving s slot.savingByKind
      weight := Function.update e.view.weight s slot.weightOf } := by
  unfold view
  rw [slotAt_set live]
  congr 1 <;> funext j <;> by_cases hj : j = s <;>
    simp [hj, update_self, update_of_ne]

theorem view_setVoterSlot {slot : VoterSlot} (live : e.voter.slots.firstNonFinalized ≤ s) :
    (e.setVoterSlot s slot).view = e.view.setVoter s slot := by
  have voter : (e.setVoterSlot s slot).view.voter = Function.update e.view.voter s slot := by
    funext j
    by_cases hj : j = s
    · subst hj
      simp [view, setVoterSlot, get?_set_self live]
    · simp [view, setVoterSlot, get?_set_ne hj, update_of_ne hj]
  unfold View.setVoter
  rw [← voter]
  rfl

theorem view_voter {slot : VoterSlot} (h : e.voter.slots.get? s = some slot) :
    e.view.voter s = slot := by
  simp [view, h]

theorem view_addAvailableBase (e : Engine) (s : UInt32) (p : ParentID) :
    (e.addAvailableBase s p).view = e.view := by
  unfold addAvailableBase SlotMap.modify
  split
  · rfl
  next slot h =>
    have live := le_of_get? h
    have old := Pool.slotAt_of_get? h
    have base : (slot.addAvailableBase p).votes = slot.votes ∧
        (slot.addAvailableBase p).certByKind = slot.certByKind ∧
        (slot.addAvailableBase p).savingByKind = slot.savingByKind ∧
        (slot.addAvailableBase p).weightOf = slot.weightOf := by
      unfold PoolSlot.addAvailableBase
      split
      · exact ⟨rfl, rfl, rfl, rfl⟩
      · split <;> exact ⟨rfl, rfl, rfl, rfl⟩
    change (e.setSlot s (slot.addAvailableBase p)).view = e.view
    rw [view_setSlot _ live, base.1, base.2.1, base.2.2.1, base.2.2.2]
    subst old
    unfold view
    simp

theorem fatal_quiet (e : Engine) (h : err.isConflict = false) :
    e.view.Quiet (e.fatal err).view := by
  unfold fatal
  split
  · exact .refl _
  · exact
      { View.Quiet.refl e.view with
        failed := fun _ => rfl
        conflicted := by simp [view, h]
        drain := by simp [view]
        queue := by
          intro d hd
          simp only [view, mem_singleton] at hd
          exact .inr (by rw [hd]; rfl) }

theorem panic_quiet (e : Engine) : e.view.Quiet e.panic.view :=
  { View.Quiet.refl e.view with
    failed := fun _ => by simp [view, panic, failed]
    drain := by simp [view, panic]
    queue := by simp [view, panic] }

theorem failed_fatal (e : Engine) (err : FatalError) : (e.fatal err).failed = true := by
  unfold fatal
  split
  · assumption
  · rfl

theorem failed_panic (e : Engine) : e.panic.failed = true := by simp [failed, panic]

theorem enqueue_quiet (e : Engine) (h : d.idle = true) : e.view.Quiet (e.enqueue d).view := by
  refine { View.Quiet.refl e.view with queue := ?_ }
  intro x hx
  simp only [view, enqueue, mem_append, mem_singleton] at hx
  rcases hx with hx | rfl
  · exact .inl hx
  · exact .inr h

theorem pop_quiet (h : e.pending = d :: rest) :
    e.view.Quiet { e with pending := rest }.view :=
  { View.Quiet.refl e.view with
    queue := fun x hx => .inl (by simp only [view, h]; exact mem_cons_of_mem _ hx) }

theorem emit_quiet (e : Engine) {ev : Event} (h : ev.idle = true) : e.view.Quiet (e.emit ev).view :=
  { View.Quiet.refl e.view with trace := ⟨[ev], by simpa using h, rfl⟩ }

/-! ## The pool -/

theorem voterWindowObserved_quiet (e : Engine) (s : UInt32) :
    e.view.Quiet (e.voterWindowObserved cfg s).view := by
  unfold voterWindowObserved
  dsimp only
  split <;> exact { View.Quiet.refl e.view with }

theorem windowObserved_quiet (e : Engine) (s : UInt32) (base : ParentID) :
    e.view.Quiet (e.windowObserved cfg s base).view := by
  unfold windowObserved
  dsimp only
  refine View.Quiet.trans ?_ (enqueue_quiet _ rfl)
  split
  · exact voterWindowObserved_quiet e s
  · exact .refl _

theorem announceWindow_quiet (e : Engine) (started : e.started = true) :
    e.view.Quiet (e.announceWindow cfg).view := by
  have bump (w : UInt32) : e.view.Quiet
      { e with pool := { e.pool with firstNonAnnouncedWindow := w } }.view :=
    { View.Quiet.refl e.view with
      window := fun h => by rw [show _ = e.started from rfl, started] at h; cases h }
  unfold announceWindow
  dsimp only
  split
  · exact .refl _
  · split
    · exact (bump _).trans (fatal_quiet _ rfl)
    · exact (bump _).trans ((windowObserved_quiet _ _ _).trans
        { View.Quiet.refl (Engine.view _) with })

theorem advancePresent_quiet (e : Engine) : e.view.Quiet (e.advancePresent cfg).view := by
  unfold advancePresent
  dsimp only
  split
  · exact .refl _
  next h =>
    have started : e.started = true := by
      by_contra hs
      simp [hs] at h
    have moved (n : UInt32) : e.view.Quiet { e with pool := { e.pool with now := n } }.view :=
      { View.Quiet.refl e.view with }
    split
    · exact (moved _).trans (announceWindow_quiet _ started)
    · exact (moved _).trans (fatal_quiet _ rfl)

theorem swapRemove_subset (l : List Candidate) (i : Nat) : swapRemove l i ⊆ l := by
  unfold swapRemove
  split
  · exact List.Subset.refl l
  next last h =>
    intro c hc
    rcases mem_or_eq_of_mem_set (dropLast_subset _ hc) with hc | rfl
    · exact hc
    · exact mem_of_getLast? h

theorem view_matches (e : Engine) : e.view.Matches e.pool := ⟨rfl, fun _ _ => rfl, rfl, rfl⟩

theorem parentWaitDecided_refines {r : ParentWait} {waits : List Candidate}
    (mem : c ∈ e.parentWaits) (sub : waits ⊆ e.parentWaits) (hr : e.pool.evaluateParentWait c = r) :
    Refines cfg ctx e ({ e with parentWaits := waits }.parentWaitDecided c r) := by
  have dropped : e.view.Quiet { e with parentWaits := waits }.view :=
    { View.Quiet.refl e.view with waits := sub }
  unfold parentWaitDecided
  split
  · exact .quiet dropped
  · exact .quiet (dropped.trans ((fatal_quiet _ rfl).trans (enqueue_quiet _ rfl)))
  · have settled : Refines cfg ctx e
        ((e.emit (.parentSettled c e.pool)).enqueue (.onParentWaitDone c .ok)) :=
      .move (.settle mem e.view_matches hr)
    exact settled.trans (.quiet { waits := sub })
  next out hout =>
    refine .quiet (dropped.trans (enqueue_quiet _ ?_))
    cases out with
    | ok => exact (hout rfl).elim
    | misbehavior m => rfl
    | slotFinalized => rfl
    | internalError => rfl

theorem registerParentWait_refines (h : .submitted c ∈ e.trace)
    (started : e.started = true) : Refines cfg ctx e (e.registerParentWait c) := by
  have waiting : Refines cfg ctx e { e with parentWaits := e.parentWaits ++ [c] } :=
    .move (.wait h started)
  unfold registerParentWait
  split
  · exact waiting
  · exact waiting.trans (parentWaitDecided_refines (e := { e with parentWaits := _ })
      (by simp) (by simp) rfl)

theorem resolveLoop_refines (n i : Nat) (e : Engine) : Refines cfg ctx e (resolveLoop n i e) := by
  induction n generalizing i e with
  | zero => exact .refl
  | succ n ih =>
    unfold resolveLoop
    split
    · exact .refl
    next c hc =>
      split
      · exact ih _ _
      · have mem := mem_of_getElem? hc
        exact (parentWaitDecided_refines mem (swapRemove_subset _ _) rfl).trans (ih _ _)

theorem resolveParentWaits_refines (e : Engine) : Refines cfg ctx e e.resolveParentWaits :=
  resolveLoop_refines _ _ e

/-! ## Certificates -/

theorem view_storeCert (h : e.pool.slots.get? cert.vote.slot = some slot) :
    ((e.setSlot cert.vote.slot (slot.setCert cert)).emit (.certStored cert)).view =
      e.view.storeCert cert := by
  have live := le_of_get? h
  have old := Pool.slotAt_of_get? h
  change (View.emit (e.setSlot _ _).view _) = _
  rw [view_setSlot _ live]
  have certs : (slot.setCert cert).certByKind =
      Function.update slot.certByKind cert.vote.kind (some cert) := by
    funext k
    cases hk : cert.vote.kind <;> cases k <;> simp [PoolSlot.setCert, PoolSlot.certByKind, hk]
  have saving : (slot.setCert cert).savingByKind =
      Function.update slot.savingByKind cert.vote.kind false := by
    funext k
    cases hk : cert.vote.kind <;> cases k <;> simp [PoolSlot.setCert, PoolSlot.savingByKind, hk]
  have votes : (slot.setCert cert).votes = slot.votes := by
    unfold PoolSlot.setCert; split <;> rfl
  have weight : (slot.setCert cert).weightOf = slot.weightOf := by
    unfold PoolSlot.setCert; split <;> rfl
  rw [certs, saving, votes, weight]
  subst old
  unfold View.storeCert View.emit view
  simp

theorem addAvailableBase_quiet (e : Engine) (s : UInt32) (p : ParentID) :
    e.view.Quiet (e.addAvailableBase s p).view := by
  rw [view_addAvailableBase]
  exact .refl _

theorem nextNonSkipped_self {i : UInt32} (h : e.view.certs (i + 1) .skip = none) {next : UInt32}
    (hn : e.pool.nextNonSkippedSlotAfter i = .slot next) : next = i + 1 := by
  unfold Pool.nextNonSkippedSlotAfter at hn
  split at hn
  · cases hn
  next slot hs =>
    have skip : slot.skipCert = none := by
      simpa [view, Pool.slotAt_of_get? hs, PoolSlot.certByKind] using h
    rw [skip] at hn
    cases hn
    rfl

theorem fields_default : (default : PoolSlot).certByKind = (fun _ => none) ∧
    (default : PoolSlot).savingByKind = (fun _ => false) ∧
    (default : PoolSlot).weightOf = fun _ => 0 := by
  refine ⟨?_, ?_, ?_⟩
  · funext k; cases k <;> rfl
  · funext k; cases k <;> rfl
  · funext v; unfold PoolSlot.weightOf; cases v.kind <;> rfl

theorem view_recordFinal (e : Engine) (cert : Certificate) :
    (e.recordFinal cert).view =
      { e.view.prunePool (View.raise e.view.horizon cert.vote.slot) with
        lastFinalized := parent cert.vote.id } := by
  generalize hk : cert.vote.slot = k
  have horizon := e.pool.slots.firstNonFinalized_notifyFinalized k
  have slot := e.pool.slots.getD_get?_notifyFinalized k
  rw [horizon] at slot
  have field {β : Type} (f : PoolSlot → β) :
      (fun s => f (((e.pool.slots.notifyFinalized k).get? s).getD default)) =
        fun s => if s < View.raise e.view.horizon k then f default else f (e.pool.slotAt s) := by
    funext s
    rw [congrFun slot s, apply_ite f]
    rfl
  obtain ⟨certs, saving, weight⟩ := fields_default
  have h₁ := field PoolSlot.votes
  have h₂ := field PoolSlot.certByKind
  have h₃ := field PoolSlot.savingByKind
  have h₄ := field PoolSlot.weightOf
  rw [certs] at h₂
  rw [saving] at h₃
  rw [weight] at h₄
  subst hk
  rw [View.mk.injEq]
  exact ⟨rfl, rfl, rfl, rfl, horizon, h₁, h₂, h₃, h₄, rfl, rfl, rfl, rfl, rfl, rfl, rfl,
    rfl, rfl, rfl,
    rfl, rfl, rfl⟩

/-- `e'` is `e` after storing `cert`, up to housekeeping. -/
def Stores (cert : Certificate) (e e' : Engine) : Prop :=
  ∃ u, Store cert e.view u ∧ u.Quiet e'.view

section Store

variable {e e₁ : Engine} {cert : Certificate} (stored : e₁.view = e.view.storeCert cert)

include stored

theorem failed_stores {e₂ : Engine} (h : e₁.view.Quiet e₂.view) (dead : e₂.failed = true) :
    Stores cert e e₂ := by
  rw [stored] at h
  exact ⟨_, .failed, { h with failed := fun _ => dead }⟩

theorem panic_stores : Stores cert e e₁.panic :=
  failed_stores stored (panic_quiet _) (failed_panic _)

theorem fatal_stores (h : err.isConflict = false) : Stores cert e (e₁.fatal err) :=
  failed_stores stored (fatal_quiet _ h) (failed_fatal _ _)

theorem onNotarCertificate_stores (kind : cert.vote.kind = .notarize) :
    Stores cert e (e₁.onNotarCertificate cfg cert) := by
  refine ⟨_, .notar kind, ?_⟩
  rw [← stored]
  have queued : View.Quiet
      { e₁.view with queue := e.view.queue ++ [.voterNotarizationObserved cert.vote.id] }
      (if cfg.hasVoter then (e₁.enqueue (.onNotarized cert.vote.id cert)).enqueue
        (.voterNotarizationObserved cert.vote.id)
      else e₁.enqueue (.onNotarized cert.vote.id cert)).view := by
    have before : e.view.queue = e₁.pending := congrArg View.queue stored.symm
    rw [before]
    split <;> exact
      { View.Quiet.refl e₁.view with queue := by simp [view, enqueue]; grind [Deferred.idle] }
  unfold onNotarCertificate
  dsimp only
  generalize (if cfg.hasVoter then _ else _ : Engine) = e₂ at queued ⊢
  refine queued.trans ?_
  split
  · exact panic_quiet _
  · exact fatal_quiet _ rfl
  · exact (addAvailableBase_quiet _ _ _).trans (advancePresent_quiet _)

theorem onSkipCertificate_stores (slot : PoolSlot) (kind : cert.vote.kind = .skip) :
    Stores cert e (e₁.onSkipCertificate cfg slot cert) := by
  unfold onSkipCertificate
  dsimp only
  split
  · exact panic_stores stored
  · exact fatal_stores stored rfl
  next next hn =>
    generalize hr : (if next = cert.vote.slot + 1 then _ else _ : List UInt32) = runs
    have before : e₁.pool.skipRuns = e.view.skipRuns := congrArg View.skipRuns stored
    rw [before] at hr
    refine ⟨{ e.view.storeCert cert with skipRuns := runs }, .skip kind ?_ ?_ ?_, ?_⟩
    · intro x hx hne
      rw [← hr]
      have kept := mem_eraseSorted.mpr ⟨hx, hne⟩
      split
      · exact mem_insertSorted.mpr (.inr kept)
      · exact kept
    · intro h
      have later : e₁.view.certs (cert.vote.slot + 1) .skip = none := by
        rw [stored]
        simpa [View.storeCert, update_of_ne
          (show cert.vote.slot + 1 ≠ cert.vote.slot by grind)] using h
      rw [← hr, if_pos (nextNonSkipped_self later hn)]
      exact mem_insertSorted.mpr (.inl rfl)
    · intro h
      rw [← hr]
      split
      · exact (h.eraseSorted _).insertSorted _
      · exact h.eraseSorted _
    · rw [← stored]
      have merged : { e₁.view with skipRuns := runs }.Quiet
          { e₁ with pool := { e₁.pool with skipRuns := runs } }.view := .refl _
      refine merged.trans ?_
      split
      · exact (addAvailableBase_quiet _ _ _).trans (advancePresent_quiet _)
      · exact advancePresent_quiet _

theorem finalizeSlot_stores (kind : cert.vote.kind = .finalize)
    (noSkip : e.view.certs cert.vote.slot .skip = none) :
    Stores cert e (e₁.finalizeSlot cfg cert) := by
  have pruned : e.view.finalizeCert cert = { (e₁.recordFinal cert).view with
      skipRuns := eraseUpTo e₁.view.skipRuns cert.vote.slot
      queue := e₁.view.queue ++ [.voterFinalizationObserved cert.vote.id]
      drain := [] } := by
    rw [view_recordFinal, stored]
    rfl
  have queued : View.Quiet
      { (e₁.recordFinal cert).view with
        queue := e₁.view.queue ++ [.voterFinalizationObserved cert.vote.id] }
      (if cfg.hasVoter then ((e₁.recordFinal cert).enqueue (.onFinalized cert.vote.id cert)).enqueue
        (.voterFinalizationObserved cert.vote.id)
      else (e₁.recordFinal cert).enqueue (.onFinalized cert.vote.id cert)).view := by
    split <;> exact
      { View.Quiet.refl (e₁.recordFinal cert).view with
        queue := by simp [view, enqueue, recordFinal]; grind [Deferred.idle] }
  unfold finalizeSlot
  dsimp only
  generalize (if cfg.hasVoter then _ else _ : Engine) = e₂ at queued ⊢
  have moved (n : UInt32) : e₂.view.Quiet { e₂ with pool := { e₂.pool with now := n } }.view :=
    { View.Quiet.refl e₂.view with }
  have advanced : e₂.view.Quiet (if e₂.pool.now ≤ cert.vote.id.slot then
      { e₂ with pool := { e₂.pool with now := cert.vote.id.slot + 1 } }.advancePresent cfg
      else e₂).view := by
    split
    · exact (moved _).trans (advancePresent_quiet _)
    · exact .refl _
  generalize (if e₂.pool.now ≤ cert.vote.id.slot then _ else _ : Engine) = e₃ at advanced ⊢
  refine ⟨_, .final kind noSkip, ?_⟩
  rw [pruned]
  exact (queued.trans advanced).sweep cert.vote.slot

theorem onFinalCertificate_stores (slot : PoolSlot) (kind : cert.vote.kind = .finalize)
    (hslot : e₁.view.certs cert.vote.slot = slot.certByKind) :
    Stores cert e (e₁.onFinalCertificate cfg slot cert) := by
  have fatal (err : FatalError) (h : err.isConflict = false) :
      Stores cert e (e₁.fatal err) := fatal_stores stored h
  unfold onFinalCertificate
  dsimp only
  split
  · exact fatal _ rfl
  next noSkip =>
    have noSkip : e.view.certs cert.vote.slot .skip = none := by
      rw [stored] at hslot
      have := congrFun hslot .skip
      simp [View.storeCert, kind, PoolSlot.certByKind] at this
      simpa [this] using noSkip
    split
    · exact fatal _ rfl
    · split
      · exact finalizeSlot_stores stored kind noSkip
      · split
        · exact panic_stores stored
        · exact fatal _ rfl
        · exact finalizeSlot_stores (by rw [view_addAvailableBase, stored]) kind noSkip

end Store

variable (cfg) in
theorem certTransition_stores (h : e.pool.slots.get? cert.vote.slot = some slot) :
    Stores cert e
      (((e.setSlot cert.vote.slot (slot.setCert cert)).emit (.certStored cert)).certTransition cfg
        (slot.setCert cert) cert) := by
  have old : e.view.certs cert.vote.slot = slot.certByKind := by
    simp [view, Pool.slotAt_of_get? h]
  have stored := view_storeCert h
  generalize (e.setSlot cert.vote.slot (slot.setCert cert)).emit (.certStored cert) = e₁
    at stored ⊢
  unfold certTransition
  cases kind : cert.vote.kind with
  | notarize => exact onNotarCertificate_stores stored kind
  | skip => exact onSkipCertificate_stores stored _ kind
  | finalize =>
    refine onFinalCertificate_stores stored _ kind ?_
    rw [stored]
    simp only [View.storeCert, update_self, old, kind]
    funext k
    cases k <;> simp [PoolSlot.setCert, PoolSlot.certByKind, kind]

variable (cfg ctx) in
/-- A certificate new to its slot is stored before parent waits resolve. -/
theorem storeSavedCertificate_stores (h : e.pool.slots.get? cert.vote.slot = some slot)
    (fresh : slot.certByKind cert.vote.kind = none) :
    ∃ e₁ e₂ : Engine, e.view.Quiet e₁.view ∧ Stores cert e₁ e₂ ∧
      Refines cfg ctx e₂ (e.storeSavedCertificate cfg slot cert) := by
  have gossip : e.view.Quiet (if e.suppressCertBroadcast then e
      else e.emit (.broadcastToRandom (.certificate cert))).view := by
    split
    · exact .refl _
    · exact emit_quiet _ rfl
  have same : (if e.suppressCertBroadcast then e
      else e.emit (.broadcastToRandom (.certificate cert))).pool = e.pool := by
    split <;> rfl
  unfold storeSavedCertificate
  rw [if_neg (by simp [fresh])]
  dsimp only
  generalize (if e.suppressCertBroadcast then _ else _ : Engine) = e₁ at gossip same ⊢
  refine ⟨e₁, _, gossip, certTransition_stores cfg (by rw [same]; exact h), ?_⟩
  split
  · exact .refl
  · exact resolveParentWaits_refines _

theorem storeSavedCertificate_refines (source : ctx.answered cert ∨ ctx.replayed cert)
    (h : e.pool.slots.get? cert.vote.slot = some slot) :
    Refines cfg ctx e (e.storeSavedCertificate cfg slot cert) := by
  by_cases fresh : slot.certByKind cert.vote.kind = none
  · obtain ⟨e₁, e₂, gossip, ⟨u, store, quiet⟩, resolved⟩ :=
      storeSavedCertificate_stores cfg ctx h fresh
    have live : e₁.view.horizon ≤ cert.vote.slot := by
      rw [gossip.horizon]
      exact le_of_get? h
    have absent : e₁.view.certs cert.vote.slot cert.vote.kind = none := by
      rw [gossip.certs]
      simpa [view, Pool.slotAt_of_get? h] using fresh
    refine Relation.ReflTransGen.trans (.single (.quiet gossip)) ?_
    exact .head (.store source live absent store) (.head (.quiet quiet) resolved)
  · unfold storeSavedCertificate
    rw [if_pos (Option.isSome_iff_ne_none.mpr fresh)]
    exact .quiet (fatal_quiet _ rfl)

/-! ## Votes and certificate saves -/

theorem view_saveCert (h : e.pool.slots.get? cert.vote.slot = some slot) :
    { e.setSlot cert.vote.slot (slot.setSaving cert.vote.kind true) with
      journal := e.journal.saveCertificate cert }.view = e.view.journalCert cert := by
  have live := le_of_get? h
  have old := Pool.slotAt_of_get? h
  have flag : (slot.setSaving cert.vote.kind true).savingByKind =
      Function.update slot.savingByKind cert.vote.kind true := by
    funext k
    cases cert.vote.kind <;> cases k <;> simp [PoolSlot.setSaving, PoolSlot.savingByKind]
  obtain ⟨votes, weight, certs, -⟩ := slot.setSaving_keeps cert.vote.kind true
  have pool := view_setSlot (slot.setSaving cert.vote.kind true) live
  change { (e.setSlot cert.vote.slot (slot.setSaving cert.vote.kind true)).view with
    certLog := (e.journal.saveCertificate cert).certs
    certSaves := (e.journal.saveCertificate cert).certSaves
    voteLog := (e.journal.saveCertificate cert).votes
    voteSaves := (e.journal.saveCertificate cert).voteSaves } = _
  rw [pool]
  unfold View.journalCert Journal.saveCertificate Journal.hasCert view
  split <;> simp_all

theorem handleCertificate_refines
    (source : (ctx.received cert ∧ cfg.verifyCertificate cert = .ok ()) ∨
      (cfg.threshold ≤ e.view.weight cert.vote.slot cert.vote ∧
        cert = cfg.buildCertificate (e.view.votes cert.vote.slot) cert.vote ∧
        ∃ i k, (e.view.votes cert.vote.slot i).byKind k ≠ none)) :
    Refines cfg ctx e (e.handleCertificate cert) := by
  apply handleCertificate_keep .refl
  intro slot h needs
  have old := Pool.slotAt_of_get? h
  simp only [PoolSlot.needs, Bool.and_eq_true, Option.isNone_iff_eq_none,
    Bool.not_eq_true'] at needs
  refine .move ?_
  rw [view_saveCert h]
  exact .save (le_of_get? h) (by simpa [view, old] using needs.1)
    (by simpa [view, old] using needs.2) source

theorem view_applied {vv : ValidatorVotes} {w : UInt64} (h : e.pool.slots.get? b.slot = some slot) :
    (e.setSlot b.slot ({ slot with votes := Function.update slot.votes i vv }.addWeight b w)).view =
      (e.view.setVotes b.slot i vv).addWeight b w := by
  have live := le_of_get? h
  have old := Pool.slotAt_of_get? h
  have same := PoolSlot.addWeight_keeps { slot with votes := Function.update slot.votes i vv } b w
  generalize hs : PoolSlot.addWeight _ b w = slot' at same ⊢
  have weight : slot'.weightOf = fun a =>
      if View.SameCounter a b then slot.weightOf a + w else slot.weightOf a := by
    funext a
    subst hs
    cases hb : b.kind <;> cases ha : a.kind <;>
      simp [PoolSlot.addWeight, PoolSlot.weightOf, View.SameCounter, update_apply, ha, hb] <;>
      split <;> simp_all
  rw [view_setSlot _ live, same.1, same.2.1, same.2.2.1, weight]
  subst old
  unfold View.setVotes View.addWeight view
  simp
  exact ⟨rfl, rfl⟩

theorem applyVote_refines (sourced : e.view.Sourced cfg ctx i b sig) (ok : e.failed = false) :
    Refines cfg ctx e (e.applyVote cfg i b sig tolerate).1 := by
  unfold applyVote
  dsimp only
  split
  · exact .refl
  next slot h =>
    have live := le_of_get? h
    have old : e.view.votes b.slot i = slot.votes i := by simp [view, Pool.slotAt_of_get? h]
    split
    next ev clash =>
      split
      next own =>
        have failed : Move cfg ctx e.view { e.view with failed := true, conflicted := true } :=
          .conflict own.1 sourced ok live (by rw [old, clash]; rfl)
        refine Relation.ReflTransGen.trans (.single failed) (.single (.quiet ?_))
        unfold fatal
        rw [ok, if_neg (by simp)]
        exact
          { View.Quiet.refl e.view with
            failed := fun _ => rfl
            conflicted := fun _ => rfl
            drain := by simp [view]
            queue := by
              intro d hd
              simp only [view, mem_singleton] at hd
              exact .inr (by rw [hd]; rfl) }
      · exact .quiet (enqueue_quiet _ rfl)
    next clean =>
      split
      next applied =>
        have added : (e.view.votes b.slot i).add ⟨b, sig, none⟩ =
            (((slot.votes i).add ⟨b, sig, none⟩).1, true, none) := by
          rw [old]
          exact Prod.ext rfl (Prod.ext applied clean)
        have move : Move cfg ctx e.view _ := .apply sourced live ok added
        obtain ⟨-, entered, -⟩ := ValidatorVotes.add_applied added
        generalize ((slot.votes i).add ⟨b, sig, none⟩).1 = vv at move entered ⊢
        unfold onVoteApplied
        dsimp only
        generalize hs : PoolSlot.addWeight _ b (cfg.weight i) = slot'
        have voted : (slot'.votes i).byKind b.kind ≠ none := by
          rw [← hs, (PoolSlot.addWeight_keeps _ _ _).1]
          dsimp only
          rw [update_self, entered, ValidatorVotes.byKind_setKind, if_pos rfl]
          simp
        have counted : Refines cfg ctx e
            ((if cfg.localIndex = some i then e.emit (.applied b)
              else e).setSlot b.slot slot') := by
          refine .move ?_
          rw [← hs]
          convert move using 1
          unfold View.enter
          split
          · exact congrArg (View.emit · (.applied b)) (view_applied h)
          · exact view_applied h
        have same : (if cfg.localIndex = some i then e.emit (.applied b) else e).pool = e.pool := by
          split <;> rfl
        generalize (if cfg.localIndex = some i then _ else _ : Engine) = e₁ at counted same ⊢
        have slotView := view_setSlot (e := e₁) slot' (by rw [same]; exact live)
        refine counted.trans ?_
        split
        next quorum =>
          refine handleCertificate_refines (.inr ?_)
          change cfg.threshold ≤ (e₁.setSlot b.slot slot').view.weight b.slot b ∧
            _ = cfg.buildCertificate ((e₁.setSlot b.slot slot').view.votes b.slot) b ∧
            ∃ j k, ((e₁.setSlot b.slot slot').view.votes b.slot j).byKind k ≠ none
          rw [slotView]
          exact ⟨by simpa using quorum.1, by simp, i, b.kind, by simpa using voted⟩
        · exact .refl
      · exact .refl

theorem applyVote_applied
    (own : cfg.localIndex = some i) (h : (e.applyVote cfg i b sig tolerate).2 = true) :
    .applied b ∈ (e.applyVote cfg i b sig tolerate).1.trace := by
  have saved (e : Engine) (cert : Certificate) : (e.handleCertificate cert).trace = e.trace := by
    unfold handleCertificate
    split
    · rfl
    · split <;> rfl
  unfold applyVote at h ⊢
  dsimp only at h ⊢
  split at h
  · cases h
  · split at h
    · split at h <;> cases h
    · split at h
      next applied =>
        simp only [applied, own, if_true, onVoteApplied]
        split
        · rw [saved]
          exact mem_cons_self
        · exact mem_cons_self
      · cases h

theorem extract_refines (answered : ctx.answered cert) {s : VoteSignature}
    (mem : s ∈ cert.signatures) (slot : PoolSlot)
    (live : e.pool.slots.firstNonFinalized ≤ cert.vote.slot) :
    Refines cfg ctx (e.setSlot cert.vote.slot slot) (e.setSlot cert.vote.slot { slot with
      votes := Function.update slot.votes s.validatorIndex
        ((slot.votes s.validatorIndex).add ⟨cert.vote, s.signature, some cert⟩).1 }) := by
  refine .move ?_
  have move : Move cfg ctx (e.setSlot cert.vote.slot slot).view _ := .extract answered mem live
  convert move using 1
  rw [view_setSlot _ live, view_setSlot _ live]
  simp only [View.setVotes, update_self, update_idem]
  rfl

theorem finishCertificateSave_refines {res : SaveResult}
    (answered : res ≠ .error → ctx.answered cert) :
    Refines cfg ctx e (e.finishCertificateSave cfg cert res) := by
  by_cases written : res = .error
  · unfold finishCertificateSave
    rw [if_pos written]
    exact .quiet (fatal_quiet _ rfl)
  · have answered := answered written
    apply finishCertificateSave_keep (P := Refines cfg ctx e)
      (R := fun e₁ slot => Refines cfg ctx e (e₁.setSlot cert.vote.slot slot) ∧
        e₁.pool.slots.firstNonFinalized ≤ cert.vote.slot)
    · exact .refl
    · exact .quiet (fatal_quiet _ rfl)
    · intro slot h
      have live := le_of_get? h
      have same : (e.setSlot cert.vote.slot slot).view = e.view := by
        rw [view_setSlot _ live]
        simp [view, Pool.slotAt_of_get? h]
      refine ⟨?_, live⟩
      unfold Refines
      rw [same]
    · rintro e₁ slot s ev ⟨entered, live⟩ - -
      exact ⟨entered.trans (.quiet (enqueue_quiet _ rfl)), live⟩
    · rintro e₁ slot s ⟨entered, live⟩ mem
      exact ⟨entered.trans (extract_refines answered mem slot live), live⟩
    · rintro e₁ slot ⟨entered, -⟩ - here
      exact entered.trans (storeSavedCertificate_refines (.inl answered) here)

/-! ## Standstill -/

theorem mem_buildStandstillMessages (h : .vote b sig ∈ e.buildStandstillMessages cfg) :
    ∃ i s k p, cfg.localIndex = some i ∧ (e.view.votes s i).byKind k = some p ∧ p.cert = none ∧
      p.vote = b := by
  rcases mem_append.mp h with h | h
  · simp at h
  · obtain ⟨s, -, h⟩ := mem_flatMap.mp h
    split at h
    · cases h
    next slot hs =>
      have found : e.pool.slots.get? s = some slot := by
        unfold SlotMap.peek at hs
        split at hs
        · cases hs
        next live =>
          rw [get?_of_le (UInt32.not_lt.mp live), hs, Option.getD_some]
      unfold slotMessages at h
      split at h
      · simp at h
      next i hi =>
        rcases mem_append.mp h with h | h
        · simp at h
        · obtain ⟨k, -, hk⟩ := mem_filterMap.mp h
          split at hk
          next p hp =>
            split at hk
            next direct =>
              simp only [Option.some.injEq, Message.vote.injEq] at hk
              refine ⟨i, s, k, p, hi, ?_, ?_, hk.1⟩
              · simpa [view, Pool.slotAt_of_get? found] using hp
              · simpa [Proven.fromCert] using direct.1
            · cases hk
          · cases hk

/-! ## The voter -/

theorem view_castVote (ok : e.failed = false) (voter : cfg.hasVoter = true) :
    (e.castVote cfg b false).view = e.view.journalVote b := by
  unfold castVote
  rw [if_neg (by simp [ok, voter]), if_neg (by simp)]
  unfold View.journalVote Journal.saveOurVote Journal.hasVote
  have log : e.view.voteLog = e.journal.votes := rfl
  rw [log]
  split <;> rfl

theorem castVote_mute {replay : Bool} (h : e.failed = true ∨ cfg.hasVoter = false) :
    e.castVote cfg b replay = e := by
  unfold castVote
  rw [if_pos (by simpa using h)]

theorem cast_refines {slot slot' : VoterSlot} (h : e.voter.slots.get? s = some slot)
    (rule : CastRule s slot b slot') :
    Refines cfg ctx e ((e.setVoterSlot s slot').castVote cfg b false) := by
  have live := le_of_get? h
  have failed : (e.setVoterSlot s slot').failed = e.failed := rfl
  rw [← view_voter h] at rule
  refine .move ?_
  by_cases mute : e.failed = true ∨ cfg.hasVoter = false
  · rw [castVote_mute (failed ▸ mute), view_setVoterSlot live]
    exact .flag rule live mute
  · simp only [not_or, Bool.not_eq_true, Bool.not_eq_false] at mute
    rw [view_castVote (failed.trans mute.1) mute.2, view_setVoterSlot live]
    exact .cast rule live mute.1 mute.2

theorem castVote_setVoterSlot (e : Engine) (b : Vote) (s : UInt32) (slot : VoterSlot) :
    (e.castVote cfg b false).setVoterSlot s slot =
    (e.setVoterSlot s slot).castVote cfg b false := by
  unfold castVote
  change _ = if e.failed || !cfg.hasVoter then _ else _
  split <;> rfl

theorem castVote_voter (e : Engine) (b : Vote) : (e.castVote cfg b false).voter = e.voter := by
  unfold castVote
  split <;> rfl

theorem voterFinalizationObserved_refines {id : CandidateID}
    (queued : e.pending = .voterFinalizationObserved id :: rest) :
    Refines cfg ctx e ({ e with pending := rest }.voterFinalizationObserved id) := by
  have horizon := e.voter.slots.firstNonFinalized_notifyFinalized id.slot
  have slots := e.voter.slots.getD_get?_notifyFinalized id.slot
  rw [horizon] at slots
  have move : Move cfg ctx e.view _ := .pruneVoter queued
  refine .move ?_
  convert move using 1
  rw [View.mk.injEq]
  exact ⟨rfl, rfl, rfl, rfl, rfl, rfl, rfl, rfl, rfl, rfl, rfl, rfl, rfl, horizon, slots, rfl, rfl,
    rfl, rfl, rfl, rfl, rfl⟩

theorem onParentWaitDone_refines {out : ParentWaitOutcome}
    (queued : e.pending = .onParentWaitDone c out :: rest) :
    Refines cfg ctx e ({ e with pending := rest }.onParentWaitDone cfg c out) := by
  have popped := pop_quiet queued
  unfold onParentWaitDone
  split
  · exact .quiet popped
  · cases out with
    | misbehavior m => exact .quiet (popped.trans (enqueue_quiet _ rfl))
    | slotFinalized => exact .quiet popped
    | internalError => exact .quiet popped
    | ok =>
      dsimp only
      split
      · exact .quiet popped
      next slot h =>
        split
        · exact .quiet popped
        next guard =>
          simp only [not_or, not_not] at guard
          have live := le_of_get? h
          have move : Move cfg ctx e.view _ :=
            .parentDone queued live (by rw [view_voter h]; exact guard.1)
          refine .trans ?_ (.quiet (enqueue_quiet _ rfl))
          rw [view_voter h] at move
          refine .move ?_
          rw [view_setVoterSlot (by exact live)]
          exact move

/-! ## Candidates and timers -/

theorem acceptCandidate_refines {c₀ : Candidate} (admitted : cfg.checkCandidate c₀ = .ok c)
    (started : e.started = true) : Refines cfg ctx e (e.acceptCandidate cfg c) := by
  unfold acceptCandidate
  dsimp only
  split
  · exact .refl
  · split
    · exact .refl
    next slot h =>
      split
      · exact .refl
      next guard =>
        simp only [Bool.or_eq_true, not_or, Bool.not_eq_true, Option.isSome_eq_false_iff,
          Option.isNone_iff_eq_none] at guard
        have live := le_of_get? h
        have move : Move cfg ctx e.view _ := .accept admitted live
          (by rw [view_voter h]; exact guard.1) (by rw [view_voter h]; exact guard.2)
        rw [view_voter h, ← view_setVoterSlot live] at move
        have accepted : Refines cfg ctx e ((e.setVoterSlot c.id.slot
            { slot with pending := some c, storeInFlight := true }).emit (.submitted c)) :=
          .move move
        have queued (e : Engine) : Refines cfg ctx e (e.enqueue (.storeCandidate c)) :=
          .quiet (enqueue_quiet _ rfl)
        exact accepted.trans ((queued _).trans (registerParentWait_refines mem_cons_self started))

/-! ## Messages -/

theorem applyVote_pendingVerify (e : Engine) (i : Nat) (b : Vote) (sig : Signature)
    (tolerate : Bool) : (e.applyVote cfg i b sig tolerate).1.pendingVerify = e.pendingVerify := by
  apply applyVote_keep (P := fun e' => e'.pendingVerify = e.pendingVerify)
  · rfl
  · intro _
    unfold fatal
    split <;> rfl
  · exact fun _ _ _ _ => rfl
  · rfl
  · exact fun _ _ _ same _ _ => same
  · intro e₁ slot same _ _
    exact handleCertificate_keep (P := fun e₁ => e₁.pendingVerify = _) same fun _ _ _ => same

theorem flushVote_pendingVerify (tooNew : UInt32) (e : Engine) (p : PendingVote) :
    (flushVote cfg tooNew e p).pendingVerify = e.pendingVerify := by
  unfold flushVote
  split
  · rfl
  · split
    · rfl
    · split
      · rfl
      · split
        · split
          · exact applyVote_pendingVerify _ _ _ _ _
          · rfl
        · rfl

end Engine

/-! ## One input -/

/-- What an input grants: the messages and answers it carries. -/
def Engine.grants (e : Engine) : Input → Ctx
  | .message _ from_ m =>
    { Ctx.nothing with arrived := m.votes from_, received := m.certifies }
  | .voteSaved v true =>
    { Ctx.nothing with acked := fun b => b = v ∧ v ∈ e.journal.voteSaves }
  | .certSaved cert res =>
    { Ctx.nothing with
      answered := fun c =>
        c = cert ∧ ⟨cert, res = .alreadySaved⟩ ∈ e.journal.certSaves ∧ res ≠ .error }
  | _ => Ctx.nothing

namespace Engine

/-- The engine once the journal has recorded the answer an input carries. -/
def answered (e : Engine) : Input → Engine
  | .voteSaved v ok => if v ∈ e.journal.voteSaves then e.answerVote v ok else e
  | .certSaved cert res =>
    if ⟨cert, res = .alreadySaved⟩ ∈ e.journal.certSaves then
      e.answerCert ⟨cert, res = .alreadySaved⟩ res
    else e
  | _ => e

end Engine

end Gton.Simplex
