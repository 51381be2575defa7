import Gton.Simplex.Evidence
import Gton.Simplex.ParentWaits

/-!
# Checking votes in batches

`HandleMessage` checks the vote of each message before the next one is looked at. The runner
admits a whole batch and checks it at once. The gates a vote passes at admission are run again
when it is applied, so both leave the same records behind.
-/

namespace Gton.Simplex

open List Function

/-- An inbound vote message. -/
structure VoteMessage where
  src : PeerID
  vote : Vote
  sig : Signature

/-- The input of a message whose sender the transport authenticates as `auth src`. -/
def VoteMessage.input (auth : PeerID → Option Nat) (m : VoteMessage) : Input :=
  .message m.src (auth m.src) (.vote m.vote m.sig)

namespace Engine

variable {cfg : Config} {e e' : Engine}

/-- `HandleMessage`: the vote of the message is checked inline. -/
def handleMessageInline (cfg : Config) (e : Engine) (t : Time) (src : PeerID)
    (srcValidator : Option Nat) (m : Message) : Engine :=
  { e with clock := t }.run cfg fun e => (e.handleMessage cfg src srcValidator m).flushVerify cfg

/-- The messages one by one, each with its vote checked inline. -/
def serial (cfg : Config) (auth : PeerID → Option Nat) (t : Time) (e : Engine)
    (msgs : List VoteMessage) : Engine :=
  msgs.foldl (fun e m => e.handleMessageInline cfg t m.src (auth m.src) (.vote m.vote m.sig)) e

/-- Admit the messages as the runner does. -/
def admission (cfg : Config) (auth : PeerID → Option Nat) (t : Time) (e : Engine)
    (msgs : List VoteMessage) : Engine :=
  msgs.foldl (fun e m => e.step cfg t (m.input auth)) e

/-- All messages, then `FlushVerify`. -/
def batched (cfg : Config) (auth : PeerID → Option Nat) (t : Time) (e : Engine)
    (msgs : List VoteMessage) : Engine :=
  (e.admission cfg auth t msgs).step cfg t .flushVerify

end Engine

/-! ## What applying a vote depends on -/

def Deferred.report? : Deferred → Option (Nat × Misbehavior)
  | .onMisbehavior i m => some (i, m)
  | _ => none

/-- Closures that only call a hook and queue nothing. -/
def Deferred.hook : Deferred → Bool
  | .onMisbehavior _ _ | .onFatal _ => true
  | _ => false

namespace Engine

variable {cfg : Config} {e e' : Engine} {tooNew : UInt32} {p : PendingVote}
  {l l' : List PendingVote} {V : PeerID → Prop}

/-- The engine without its bans, queue, history and buffered votes. -/
def bare (e : Engine) : Engine :=
  { e with bans := fun _ => none, pending := [], trace := [], pendingVerify := [] }

/-- The reports in order: those the hook was called with, then those queued. -/
def reportLog (e : Engine) : List (Nat × Misbehavior) :=
  e.reported.reverse ++ e.pending.filterMap Deferred.report?

theorem failed_bare (e : Engine) : e.bare.failed = e.failed := rfl

/-- A transition that neither reads nor changes bans, and only adds to queue and history. -/
structure Blind (f : Engine → Engine) : Prop where
  bare : ∀ e, (f e).bare = (f e.bare).bare := by exact fun _ => rfl
  bans : ∀ e, (f e).bans = e.bans := by exact fun _ => rfl
  inbox : ∀ e, (f e).pendingVerify = e.pendingVerify := by exact fun _ => rfl
  still : ∀ e, (f e).clock = e.clock ∧ (f e).params = e.params ∧ (f e).started = e.started ∧
    (f e).pool.now = e.pool.now := by exact fun _ => ⟨rfl, rfl, rfl, rfl⟩
  alive : ∀ e, (f e).failed = false → e.failed = false := by exact fun _ ok => ok
  log : ∀ e, (f e).failed = false → (f e).reportLog = e.reportLog ++ (f e.bare).reportLog
  hooks : ∀ e, (∀ d ∈ e.pending, d.hook = true) → ∀ d ∈ (f e).pending, d.hook = true := by
    exact fun _ h => h

namespace Blind

variable {f g : Engine → Engine}

theorem comp (hg : Blind g) (hf : Blind f) : Blind fun e => g (f e) where
  bare e := by rw [hg.bare, hf.bare, ← hg.bare]
  bans e := (hg.bans _).trans (hf.bans e)
  inbox e := (hg.inbox _).trans (hf.inbox e)
  still e := by
    obtain ⟨c, p, s, n⟩ := hf.still e
    obtain ⟨c', p', s', n'⟩ := hg.still (f e)
    exact ⟨c'.trans c, p'.trans p, s'.trans s, n'.trans n⟩
  alive e ok := hf.alive e (hg.alive _ ok)
  log e ok := by
    have ok' := hg.alive _ ok
    have same : (g (f e.bare)).failed = false := by
      rw [← failed_bare, hg.bare, ← hf.bare, ← hg.bare, failed_bare]
      exact ok
    rw [hg.log _ ok, hf.log e ok', hg.log _ same, ← hf.bare, append_assoc]
  hooks e h := hg.hooks _ (hf.hooks e h)

theorem inner (bare : ∀ e, (f e).bare = (f e.bare).bare)
    (still : ∀ e, (f e).clock = e.clock ∧ (f e).params = e.params ∧ (f e).started = e.started ∧
      (f e).pool.now = e.pool.now)
    (same : ∀ e, (f e).bans = e.bans ∧ (f e).pendingVerify = e.pendingVerify ∧
      (f e).failed = e.failed ∧ (f e).trace = e.trace ∧ (f e).pending = e.pending) : Blind f where
  bare := bare
  bans e := (same e).1
  inbox e := (same e).2.1
  still := still
  alive e ok := (same e).2.2.1 ▸ ok
  log e _ := by
    obtain ⟨-, -, -, trace, pending⟩ := same e
    obtain ⟨-, -, -, trace', pending'⟩ := same e.bare
    unfold reportLog reported
    rw [trace, pending, trace', pending']
    exact (append_nil _).symm
  hooks e h := (same e).2.2.2.2 ▸ h

theorem id : Blind fun e => e :=
  inner (fun _ => rfl) (fun _ => ⟨rfl, rfl, rfl, rfl⟩) fun _ => ⟨rfl, rfl, rfl, rfl, rfl⟩

theorem setSlot (s : UInt32) (slot : PoolSlot) : Blind fun e => e.setSlot s slot :=
  inner (fun _ => rfl) (fun _ => ⟨rfl, rfl, rfl, rfl⟩) fun _ => ⟨rfl, rfl, rfl, rfl, rfl⟩

theorem handleCertificate (cert : Certificate) : Blind fun e => e.handleCertificate cert := by
  refine inner (fun e => ?_) (fun e => ?_) fun e => ?_
  · have pool : e.bare.pool = e.pool := rfl
    unfold Engine.handleCertificate
    rw [pool]
    split
    · rfl
    · split <;> rfl
  · unfold Engine.handleCertificate
    repeat' split
    all_goals exact ⟨rfl, rfl, rfl, rfl⟩
  · unfold Engine.handleCertificate
    repeat' split
    all_goals exact ⟨rfl, rfl, rfl, rfl, rfl⟩

theorem emit {ev : Event} (quiet : ev.report? = none) : Blind fun e => e.emit ev where
  log e _ := by simp [reportLog, reported, Engine.emit, quiet, Engine.bare]

theorem report (i : Nat) (m : Misbehavior) : Blind fun e => e.reportMisbehavior i m where
  log e _ := by
    simp [reportLog, reported, reportMisbehavior, enqueue, Engine.bare, Deferred.report?]
  hooks e h d hd := by
    rcases mem_append.mp hd with old | new
    · exact h d old
    · rw [mem_singleton.mp new]
      rfl

theorem fatal (err : FatalError) : Blind fun e => e.fatal err where
  bare e := by
    unfold Engine.fatal
    rw [failed_bare]
    split <;> rfl
  bans e := by
    unfold Engine.fatal
    split <;> rfl
  inbox e := (Inner.fatal e err).pendingVerify
  still e := by
    unfold Engine.fatal
    split <;> exact ⟨rfl, rfl, rfl, rfl⟩
  alive e ok := by
    rw [failed_fatal] at ok
    cases ok
  log e ok := by
    rw [failed_fatal] at ok
    cases ok
  hooks e h := by
    unfold Engine.fatal
    split
    · exact h
    · intro d hd
      rw [mem_singleton.mp hd]
      rfl

theorem choose {β : Type} (key : Engine → β)
    (stable : ∀ e, key e.bare = key e) {F : β → Engine → Engine} (h : ∀ b, Blind (F b))
    (eq : ∀ e, f e = F (key e) e) : Blind f where
  bare e := by rw [eq, eq, stable, (h _).bare]
  bans e := by rw [eq, (h _).bans]
  inbox e := by rw [eq, (h _).inbox]
  still e := eq e ▸ (h _).still e
  alive e ok := (h _).alive e (eq e ▸ ok)
  log e ok := by
    rw [eq] at ok
    rw [eq, eq, stable, (h _).log e ok]
  hooks e := by
    rw [eq]
    exact (h _).hooks e

/-- `applyVote` once the slot was looked up. -/
def applyVoteTo (cfg : Config) (i : Nat) (v : Vote) (sig : Signature) (tolerate : Bool) :
    Option PoolSlot → Engine → Engine
  | none, e => e
  | some slot, e =>
    match ((slot.votes i).add ⟨v, sig, none⟩).2.2 with
    | some ev =>
      if cfg.localIndex = some i ∧ !tolerate then e.fatal (.conflictingVotes v)
      else e.reportMisbehavior i (ev.misbehavior i)
    | none =>
      if ((slot.votes i).add ⟨v, sig, none⟩).2.1 then
        (if cfg.localIndex = some i then e.emit (.applied v) else e).onVoteApplied cfg i v
          { slot with votes := Function.update slot.votes i ((slot.votes i).add ⟨v, sig, none⟩).1 }
      else e

/-- A vote is applied the same whoever is banned and whatever was queued before. -/
theorem applyVote (i : Nat) (v : Vote) (sig : Signature) (tolerate : Bool) :
    Blind fun e => (e.applyVote cfg i v sig tolerate).1 := by
  have counted (slot : PoolSlot) : Blind fun e => e.onVoteApplied cfg i v slot := by
    unfold onVoteApplied
    dsimp only
    split
    · exact (handleCertificate _).comp (setSlot _ _)
    · exact setSlot _ _
  have noted : Blind fun e => if cfg.localIndex = some i then e.emit (.applied v) else e := by
    split
    · exact emit rfl
    · exact .id
  have chosen (o : Option PoolSlot) : Blind (applyVoteTo cfg i v sig tolerate o) := by
    cases o with
    | none => exact .id
    | some slot =>
      unfold applyVoteTo
      dsimp only
      split
      · split
        · exact fatal _
        · exact report _ _
      · split
        · exact (counted _).comp noted
        · exact .id
  refine choose (fun e => e.pool.slots.get? v.slot) (fun _ => rfl) chosen fun e => ?_
  unfold Engine.applyVote applyVoteTo
  cases e.pool.slots.get? v.slot with
  | none => rfl
  | some slot =>
    dsimp only
    generalize (slot.votes i).add ⟨v, sig, none⟩ = r
    obtain ⟨vv, applied, ev⟩ := r
    cases ev with
    | none =>
      dsimp only
      split <;> rfl
    | some ev =>
      dsimp only
      split <;> rfl

end Blind

/-! ## Two engines that differ in their bans -/

theorem drainLoop_hooks (n : Nat) (hooks : ∀ d ∈ e.pending, d.hook = true) :
    (e.drainLoop cfg n).bare = e.bare ∧ (e.drainLoop cfg n).bans = e.bans ∧
      (e.drainLoop cfg n).pendingVerify = e.pendingVerify ∧
      (e.drainLoop cfg n).reportLog = e.reportLog ∧
      ∀ d ∈ (e.drainLoop cfg n).pending, d.hook = true := by
  induction n generalizing e with
  | zero => exact ⟨rfl, rfl, rfl, rfl, hooks⟩
  | succ n ih =>
    unfold drainLoop
    split
    · exact ⟨rfl, rfl, rfl, rfl, hooks⟩
    next d ds queue =>
      rw [queue] at hooks
      have hook := hooks d mem_cons_self
      have rest := @ih ({ e with pending := ds }.runDeferred cfg d)
      have log : ({ e with pending := ds }.runDeferred cfg d).reportLog = e.reportLog := by
        unfold reportLog reported
        rw [queue]
        cases d with
        | onMisbehavior i m => simp [runDeferred, Engine.emit, Event.report?, Deferred.report?]
        | onFatal err => rfl
        | _ => cases hook
      rw [log] at rest
      cases d with
      | onMisbehavior | onFatal => exact rest fun d hd => hooks d (mem_cons_of_mem _ hd)
      | _ => cases hook

/-- Two engines that agree on everything but the order of their history and the bans of peers
outside `V`. -/
structure Alike (V : PeerID → Prop) (e e' : Engine) : Prop where
  bare : e.bare = e'.bare
  bans : ∀ p, V p → e.bans p = e'.bans p
  log : e.failed = false → e.reportLog = e'.reportLog

namespace Alike

variable {e'' : Engine}

theorem refl (e : Engine) : Alike V e e := ⟨rfl, fun _ _ => rfl, fun _ => rfl⟩

section

variable (h : Alike V e e')
include h

theorem failed : e.failed = e'.failed := by
  rw [← failed_bare, h.bare, failed_bare]

theorem symm : Alike V e' e :=
  ⟨h.bare.symm, fun p hp => (h.bans p hp).symm, fun ok => (h.log (h.failed ▸ ok)).symm⟩

theorem trans (h' : Alike V e' e'') : Alike V e e'' :=
  ⟨h.bare.trans h'.bare, fun p hp => (h.bans p hp).trans (h'.bans p hp),
    fun ok => (h.log ok).trans (h'.log (h.failed ▸ ok))⟩

theorem pool : e.pool = e'.pool :=
  (congrArg Engine.pool h.bare : e.bare.pool = e'.bare.pool)

theorem clock : e.clock = e'.clock :=
  (congrArg Engine.clock h.bare : e.bare.clock = e'.bare.clock)

theorem params : e.params = e'.params :=
  (congrArg Engine.params h.bare : e.bare.params = e'.bare.params)

theorem journal : e.journal = e'.journal :=
  (congrArg Engine.journal h.bare : e.bare.journal = e'.bare.journal)

theorem started : e.started = e'.started :=
  (congrArg Engine.started h.bare : e.bare.started = e'.bare.started)

theorem firstTooNewSlot : e.firstTooNewSlot cfg = e'.firstTooNewSlot cfg := by
  unfold Engine.firstTooNewSlot
  rw [h.pool, h.params]

theorem isBanned {p : PeerID} (hp : V p) : e.isBanned p = e'.isBanned p := by
  unfold Engine.isBanned
  rw [h.bans p hp, h.clock]

end

theorem blind {f : Engine → Engine} (hf : Blind f) (h : Alike V e e') : Alike V (f e) (f e') where
  bare := by rw [hf.bare, h.bare, ← hf.bare]
  bans p hp := by rw [hf.bans, hf.bans, h.bans p hp]
  log ok := by
    have same : (f e').failed = false := by
      rw [← failed_bare, hf.bare, ← h.bare, ← hf.bare, failed_bare]
      exact ok
    rw [hf.log e ok, hf.log e' same, h.log (hf.alive e ok), h.bare]

theorem ban (h : Alike V e e') (src : PeerID) : Alike V (e.ban src) (e'.ban src) where
  bare := h.bare
  bans p hp := by
    unfold Engine.ban
    dsimp only
    rw [h.clock, h.params]
    by_cases here : p = src
    · rw [here, update_self, update_self]
    · rw [update_of_ne here, update_of_ne here]
      exact h.bans p hp
  log ok := h.log ok

theorem flushVote (h : Alike V e e') (hp : V p.src) :
    Alike V (flushVote cfg tooNew e p) (flushVote cfg tooNew e' p) := by
  unfold Engine.flushVote
  rw [h.failed, h.isBanned hp, h.pool]
  split
  · exact h
  · split
    · exact h
    · split
      · exact h
      · split
        · split
          · exact h.blind (.applyVote _ _ _ _)
          · exact h.ban _
        · exact h

theorem foldl (h : Alike V e e') (l : List PendingVote) (hl : ∀ p ∈ l, V p.src) :
    Alike V (l.foldl (Engine.flushVote cfg tooNew) e)
      (l.foldl (Engine.flushVote cfg tooNew) e') := by
  induction l generalizing e e' with
  | nil => exact h
  | cons p l ih =>
    exact ih (h.flushVote (hl p mem_cons_self)) fun q hq => hl q (mem_cons_of_mem _ hq)

theorem ban_outside {src : PeerID} (out : ¬ V src) : Alike V (e.ban src) e where
  bare := rfl
  bans p hp := by
    have other : p ≠ src := by
      rintro rfl
      exact out hp
    exact update_of_ne other _ _
  log _ := rfl

theorem setInbox (l : List PendingVote) : Alike V { e with pendingVerify := l } e :=
  ⟨rfl, fun _ _ => rfl, fun _ => rfl⟩

theorem drainLoop (n : Nat) (hooks : ∀ d ∈ e.pending, d.hook = true) :
    Alike V (e.drainLoop cfg n) e := by
  obtain ⟨bare, bans, -, log, -⟩ := drainLoop_hooks n hooks
  exact ⟨bare, fun p _ => congrFun bans p, fun _ => log⟩

end Alike

/-! ## Votes that are refused stay refused -/

/-- A vote the gates of `flushVerify` drop. -/
def Refused (tooNew : UInt32) (e : Engine) (p : PendingVote) : Prop :=
  e.failed = true ∨ e.isBanned p.src = true ∨ tooNew ≤ p.vote.slot ∨
    ∀ slot, e.pool.slots.get? p.vote.slot = some slot → (slot.votes p.idx).wants p.vote = false

theorem Refused.flushVote_eq (h : Refused tooNew e p) : flushVote cfg tooNew e p = e := by
  unfold flushVote
  split
  · rfl
  next open_ =>
    simp only [Bool.or_eq_true, not_or] at open_
    split
    · rfl
    next old =>
      split
      · rfl
      next slot here =>
        rcases h with failed | banned | new | unwanted
        · exact absurd failed open_.1
        · exact absurd banned open_.2
        · exact absurd new old
        · rw [unwanted slot here]
          rfl

/-- Every record of `p` is still there in `q`, and no slot came back. -/
def Grown (p q : Pool) : Prop :=
  ∀ s slot', q.slots.get? s = some slot' → ∃ slot, p.slots.get? s = some slot ∧
    ∀ i k r, (slot.votes i).byKind k = some r → (slot'.votes i).byKind k = some r

theorem Grown.refl (p : Pool) : Grown p p := fun _ slot here => ⟨slot, here, fun _ _ _ h => h⟩

theorem Grown.trans {p q r : Pool} (h : Grown p q) (h' : Grown q r) : Grown p r := by
  intro s slot'' here
  obtain ⟨slot', here', kept'⟩ := h' s slot'' here
  obtain ⟨slot, here, kept⟩ := h s slot' here'
  exact ⟨slot, here, fun i k r hr => kept' i k r (kept i k r hr)⟩

theorem Grown.setSlot {s : UInt32} {slot slot' : PoolSlot}
    (here : e.pool.slots.get? s = some slot)
    (kept : ∀ i k r, (slot.votes i).byKind k = some r → (slot'.votes i).byKind k = some r) :
    Grown e.pool (e.setSlot s slot').pool := by
  intro t found there
  have there : (e.pool.slots.set s slot').get? t = some found := there
  by_cases eq : t = s
  · subst eq
    rw [SlotMap.get?_set_self (SlotMap.le_of_get? here)] at there
    cases there
    exact ⟨slot, here, kept⟩
  · rw [SlotMap.get?_set_ne eq] at there
    exact ⟨found, there, fun _ _ _ h => h⟩

theorem Grown.handleCertificate (e : Engine) (cert : Certificate) :
    Grown e.pool (e.handleCertificate cert).pool := by
  apply handleCertificate_keep (P := fun e' => Grown e.pool e'.pool) (refl _)
  intro slot here _
  refine Grown.setSlot here fun i k r h => ?_
  rw [(PoolSlot.setSaving_keeps _ _ _).1]
  exact h

theorem Grown.applyVote (e : Engine) (i : Nat) (v : Vote) (sig : Signature) (tolerate : Bool) :
    Grown e.pool (e.applyVote cfg i v sig tolerate).1.pool := by
  apply applyVote_keep (P := fun e' => Grown e.pool e'.pool)
  · exact refl _
  · intro _
    rw [pool_fatal]
    exact refl _
  · exact fun _ _ _ _ => refl _
  · exact refl _
  · intro e₁ slot vv grown here added
    refine grown.trans (Grown.setSlot here fun j k r h => ?_)
    rw [(PoolSlot.addWeight_keeps _ _ _).1]
    dsimp only
    by_cases own : j = i
    · subst own
      have entered : ((slot.votes j).add ⟨v, sig, none⟩).1 = vv := congrArg Prod.fst added
      rw [update_self, ← entered]
      exact ValidatorVotes.byKind_add h
    · rw [update_of_ne own]
      exact h
  · exact fun _ _ grown _ _ => grown.trans (handleCertificate _ _)

theorem isBanned_ban (e : Engine) (src p : PeerID) (h : e.isBanned p = true) :
    (e.ban src).isBanned p = true := by
  unfold isBanned ban at *
  by_cases here : p = src
  · subst here
    simp
  · simpa [update_of_ne here] using h

theorem Refused.flushVote (h : Refused tooNew e p) (q : PendingVote) :
    Refused tooNew (flushVote cfg tooNew e q) p := by
  unfold Engine.flushVote
  repeat' split
  all_goals try exact h
  · rcases h with failed | banned | new | unwanted
    · refine .inl (Bool.eq_true_of_not_eq_false fun ok => ?_)
      rw [(Blind.applyVote _ _ _ _).alive e ok] at failed
      cases failed
    · refine .inr (.inl ?_)
      have blind : Blind fun e => (e.applyVote cfg q.idx q.vote q.sig false).1 := .applyVote _ _ _ _
      unfold Engine.isBanned
      rw [blind.bans e, (blind.still e).1]
      exact banned
    · exact .inr (.inr (.inl new))
    · refine .inr (.inr (.inr fun slot' here => ?_))
      obtain ⟨slot, here, kept⟩ := Grown.applyVote e q.idx q.vote q.sig false _ _ here
      have had := unwanted slot here
      unfold ValidatorVotes.wants at had ⊢
      cases record : (slot.votes p.idx).byKind p.vote.kind with
      | none =>
        rw [record] at had
        cases had
      | some r =>
        rw [kept _ _ _ record]
        rfl
  · rcases h with failed | banned | new | unwanted
    · exact .inl failed
    · exact .inr (.inl (isBanned_ban e _ _ banned))
    · exact .inr (.inr (.inl new))
    · exact .inr (.inr (.inr unwanted))

theorem Refused.foldl (h : Refused tooNew e p) (l : List PendingVote) :
    Refused tooNew (l.foldl (Engine.flushVote cfg tooNew) e) p := by
  induction l generalizing e with
  | nil => exact h
  | cons q l ih => exact ih (h.flushVote q)

/-- `l'` is `l` without some votes that are refused. -/
inductive Thinned (tooNew : UInt32) (e : Engine) : List PendingVote → List PendingVote → Prop where
  | nil : Thinned tooNew e [] []
  | keep (p : PendingVote) {l l' : List PendingVote} (h : Thinned tooNew e l l') :
      Thinned tooNew e (p :: l) (p :: l')
  | drop {p : PendingVote} {l l' : List PendingVote} (refused : Refused tooNew e p)
      (h : Thinned tooNew e l l') : Thinned tooNew e (p :: l) l'

theorem Thinned.foldl (h : Thinned tooNew e l l')
    (later : ∀ p, Refused tooNew e p → Refused tooNew e' p) :
    l'.foldl (flushVote cfg tooNew) e' = l.foldl (flushVote cfg tooNew) e' := by
  induction h generalizing e' with
  | nil => rfl
  | keep p _ ih => exact ih fun q hq => (later q hq).flushVote p
  | drop refused _ ih =>
    rw [foldl_cons, (later _ refused).flushVote_eq]
    exact ih later

theorem Thinned.mem (h : Thinned tooNew e l l') (hp : p ∈ l') : p ∈ l := by
  induction h with
  | nil => exact hp
  | keep q _ ih =>
    rcases mem_cons.mp hp with rfl | rest
    · exact mem_cons_self
    · exact mem_cons_of_mem _ (ih rest)
  | drop _ _ ih => exact mem_cons_of_mem _ (ih hp)

theorem Thinned.append {l₁ l₁' l₂ l₂' : List PendingVote} (h₁ : Thinned tooNew e l₁ l₁')
    (h₂ : Thinned tooNew e l₂ l₂') : Thinned tooNew e (l₁ ++ l₂) (l₁' ++ l₂') := by
  induction h₁ with
  | nil => exact h₂
  | keep p _ ih => exact .keep p ih
  | drop refused _ ih => exact .drop refused ih

theorem Refused.alike (h : Refused tooNew e p) (same : Alike V e e') (hp : V p.src) :
    Refused tooNew e' p := by
  unfold Refused at h ⊢
  rw [same.failed, same.isBanned hp, same.pool] at h
  exact h

theorem Thinned.alike (h : Thinned tooNew e l l') (same : Alike V e e') (hl : ∀ p ∈ l, V p.src) :
    Thinned tooNew e' l l' := by
  induction h with
  | nil => exact .nil
  | keep p _ ih => exact .keep p (ih fun q hq => hl q (mem_cons_of_mem _ hq))
  | drop refused _ ih =>
    exact .drop (refused.alike same (hl _ mem_cons_self))
      (ih fun q hq => hl q (mem_cons_of_mem _ hq))

theorem Thinned.batch (h : Thinned tooNew e l l') (same : Alike V e' e) (first : List PendingVote)
    (members : ∀ p ∈ first ++ l', V p.src) :
    Alike V ((first ++ l').foldl (flushVote cfg tooNew) e')
      ((first ++ l).foldl (flushVote cfg tooNew) e) := by
  have eq : (first ++ l').foldl (flushVote cfg tooNew) e =
      (first ++ l).foldl (flushVote cfg tooNew) e := by
    rw [foldl_append, foldl_append]
    exact h.foldl fun p hp => hp.foldl first
  rw [← eq]
  exact same.foldl _ members

/-- What applying votes leaves alone. -/
structure Flushed (V : PeerID → Prop) (e e' : Engine) : Prop where
  clock : e'.clock = e.clock
  params : e'.params = e.params
  started : e'.started = e.started
  now : e'.pool.now = e.pool.now
  inbox : e'.pendingVerify = e.pendingVerify
  bans : ∀ q, ¬ V q → e'.bans q = e.bans q
  failed : e'.failed = false → e.failed = false
  hooks : (∀ d ∈ e.pending, d.hook = true) → ∀ d ∈ e'.pending, d.hook = true

namespace Flushed

variable {e'' : Engine}

theorem refl (e : Engine) : Flushed V e e :=
  ⟨rfl, rfl, rfl, rfl, rfl, fun _ _ => rfl, fun h => h, fun h => h⟩

theorem trans (h : Flushed V e e') (h' : Flushed V e' e'') : Flushed V e e'' where
  clock := h'.clock.trans h.clock
  params := h'.params.trans h.params
  started := h'.started.trans h.started
  now := h'.now.trans h.now
  inbox := h'.inbox.trans h.inbox
  bans q hq := (h'.bans q hq).trans (h.bans q hq)
  failed ok := h.failed (h'.failed ok)
  hooks hd := h'.hooks (h.hooks hd)

theorem firstTooNewSlot (h : Flushed V e e') : e'.firstTooNewSlot cfg = e.firstTooNewSlot cfg := by
  unfold Engine.firstTooNewSlot
  rw [h.now, h.params]

theorem flushVote (hp : V p.src) : Flushed V e (flushVote cfg tooNew e p) := by
  unfold Engine.flushVote
  repeat' split
  all_goals try exact refl e
  · have blind : Blind fun e => (e.applyVote cfg p.idx p.vote p.sig false).1 := .applyVote _ _ _ _
    obtain ⟨clock, params, started, now⟩ := blind.still e
    exact ⟨clock, params, started, now, blind.inbox e, fun q _ => by rw [blind.bans e],
      blind.alive e, blind.hooks e⟩
  · refine ⟨rfl, rfl, rfl, rfl, rfl, fun q hq => ?_, fun h => h, fun h => h⟩
    have other : q ≠ p.src := by
      rintro rfl
      exact hq hp
    exact update_of_ne other _ _

theorem foldl (l : List PendingVote) (hl : ∀ p ∈ l, V p.src) :
    Flushed V e (l.foldl (Engine.flushVote cfg tooNew) e) := by
  induction l generalizing e with
  | nil => exact refl e
  | cons p l ih =>
    exact (flushVote (hl p mem_cons_self)).trans
      (ih fun q hq => hl q (mem_cons_of_mem _ hq))

theorem drainLoop (n : Nat) (hooks : ∀ d ∈ e.pending, d.hook = true) :
    Flushed V e (e.drainLoop cfg n) := by
  obtain ⟨bare, bans, inbox, -, left⟩ := drainLoop_hooks n hooks
  have same {β : Type} (f : Engine → β) : f (e.drainLoop cfg n).bare = f e.bare :=
    congrArg f bare
  exact ⟨same Engine.clock, same Engine.params, same Engine.started, same (·.pool.now), inbox,
    fun q _ => congrFun bans q, fun ok => (same Engine.failed).symm.trans ok, fun _ => left⟩

end Flushed

theorem flush_spec (idle : e.pending = []) (inbox : ∀ p ∈ e.pendingVerify, V p.src) :
    Alike V ((e.flushVerify cfg).drainPending cfg)
        (e.pendingVerify.foldl (flushVote cfg (e.firstTooNewSlot cfg)) e) ∧
      Flushed V { e with pendingVerify := [] } ((e.flushVerify cfg).drainPending cfg) := by
  have flushed : Flushed V e (e.pendingVerify.foldl (flushVote cfg (e.firstTooNewSlot cfg)) e) :=
    .foldl _ inbox
  have hooks : ∀ d ∈ (e.flushVerify cfg).pending, d.hook = true :=
    flushed.hooks (by rw [idle]; intro d hd; cases hd)
  have emptied : Flushed V { e with pendingVerify := [] } (e.flushVerify cfg) :=
    ⟨flushed.clock, flushed.params, flushed.started, flushed.now, rfl, flushed.bans,
      flushed.failed, flushed.hooks⟩
  exact ⟨(Alike.drainLoop _ hooks).trans (.setInbox _), emptied.trans (.drainLoop _ hooks)⟩

end Engine

/-! ## One message -/

/-- The buffered form of a message from a validator. -/
def VoteMessage.buffered? (cfg : Config) (auth : PeerID → Option Nat) (m : VoteMessage) :
    Option PendingVote :=
  match auth m.src with
  | some idx =>
    if idx < cfg.validators.length then some ⟨m.src, idx, m.vote.decoded, m.sig⟩ else none
  | none => none

/-- The peers the transport knows as validators. -/
def Config.Member (cfg : Config) (auth : PeerID → Option Nat) (src : PeerID) : Prop :=
  ∃ idx, auth src = some idx ∧ idx < cfg.validators.length

variable {auth : PeerID → Option Nat} {cfg : Config} {m : VoteMessage} {e : Engine}

theorem VoteMessage.member_of_entry (h : m.buffered? cfg auth = some p) :
    p.src = m.src ∧ cfg.Member auth m.src := by
  unfold buffered? at h
  split at h
  next idx known =>
    split at h
    next inside =>
      cases h
      exact ⟨rfl, idx, known, inside⟩
    · cases h
  · cases h

theorem VoteMessage.not_member_of_entry
    (h : m.buffered? cfg auth = none) : ¬ cfg.Member auth m.src := by
  rintro ⟨idx, known, inside⟩
  unfold buffered? at h
  rw [known] at h
  dsimp only at h
  rw [if_pos inside] at h
  cases h

theorem VoteMessage.filterMap_entry (m : VoteMessage)
    (msgs : List VoteMessage) : (m :: msgs).filterMap (buffered? cfg auth) =
      (m.buffered? cfg auth).toList ++ msgs.filterMap (buffered? cfg auth) := by
  rw [filterMap_cons]
  cases m.buffered? cfg auth <;> rfl

theorem VoteMessage.members (msgs : List VoteMessage) :
    ∀ p ∈ msgs.filterMap (buffered? cfg auth), cfg.Member auth p.src := by
  intro p hp
  obtain ⟨m, -, entry⟩ := mem_filterMap.mp hp
  obtain ⟨src, member⟩ := member_of_entry entry
  exact src ▸ member

namespace Engine

variable {cfg : Config} {auth : PeerID → Option Nat} {e e' h : Engine} {m : VoteMessage} {t : Time}

/-- The ban of a peer that is no validator, after a message. -/
def noted (e : Engine) (m : VoteMessage) (q : PeerID) : Option Time :=
  if m.src = q ∧ e.isBanned q = false then some (e.clock + e.params.badSignatureBanDuration)
  else e.bans q

theorem noted_of_member {q : PeerID} (hq : ¬ cfg.Member auth q) (member : cfg.Member auth m.src) :
    e.noted m q = e.bans q := by
  unfold noted
  rw [if_neg]
  rintro ⟨rfl, -⟩
  exact hq member

/-- What the admission of a message leaves: its vote is buffered, or was refused anyway. -/
structure Entered (cfg : Config) (auth : PeerID → Option Nat) (m : VoteMessage) (e h : Engine) :
    Prop where
  queue : h.pending = e.pending
  alike : Alike (cfg.Member auth) h e
  bans : ∀ q, ¬ cfg.Member auth q → h.bans q = e.noted m q
  inbox : ∃ l, h.pendingVerify = e.pendingVerify ++ l ∧
    Thinned (e.firstTooNewSlot cfg) e (m.buffered? cfg auth).toList l

theorem Entered.outside (entry : m.buffered? cfg auth = none) :
    Entered cfg auth m e (if e.isBanned m.src then e else e.ban m.src) := by
  have nothing : ∃ l, e.pendingVerify = e.pendingVerify ++ l ∧
      Thinned (e.firstTooNewSlot cfg) e (m.buffered? cfg auth).toList l := by
    rw [entry]
    exact ⟨[], (append_nil _).symm, .nil⟩
  split
  next banned =>
    refine ⟨rfl, .refl e, fun q _ => ?_, nothing⟩
    unfold noted
    rw [if_neg]
    rintro ⟨rfl, free⟩
    rw [banned] at free
    cases free
  next free =>
    refine ⟨rfl, .ban_outside (VoteMessage.not_member_of_entry entry), fun q _ => ?_, nothing⟩
    unfold noted ban
    dsimp only
    by_cases here : q = m.src
    · rw [here, update_self, if_pos ⟨rfl, by simpa using free⟩]
    · rw [update_of_ne here, if_neg fun h => here h.1.symm]

theorem Entered.refused (entry : m.buffered? cfg auth = some p)
    (h : Refused (e.firstTooNewSlot cfg) e p) : Entered cfg auth m e e where
  queue := rfl
  alike := .refl e
  bans _ hq := (noted_of_member hq (VoteMessage.member_of_entry entry).2).symm
  inbox := by
    rw [entry]
    exact ⟨[], (append_nil _).symm, .drop h .nil⟩

theorem Entered.buffered (entry : m.buffered? cfg auth = some p) :
    Entered cfg auth m e { e with pendingVerify := e.pendingVerify ++ [p] } where
  queue := rfl
  alike := .setInbox _
  bans _ hq := (noted_of_member hq (VoteMessage.member_of_entry entry).2).symm
  inbox := by
    rw [entry]
    exact ⟨[p], rfl, .keep p .nil⟩

theorem handleMessage_entered (e : Engine) (m : VoteMessage) :
    Entered cfg auth m e (e.handleMessage cfg m.src (auth m.src) (.vote m.vote m.sig)) := by
  unfold handleMessage handleVote
  cases known : auth m.src with
  | none =>
    refine .outside ?_
    unfold VoteMessage.buffered?
    rw [known]
  | some idx =>
    dsimp only
    by_cases inside : idx < cfg.validators.length
    · have entry : m.buffered? cfg auth = some ⟨m.src, idx, m.vote.decoded, m.sig⟩ := by
        unfold VoteMessage.buffered?
        rw [known]
        exact if_pos inside
      rw [if_neg (Nat.not_le.mpr inside)]
      split
      next banned =>
        exact .refused entry (.inr (.inl banned))
      · split
        next new =>
          exact .refused entry (.inr (.inr (.inl new)))
        · split
          next gone =>
            refine .refused entry (.inr (.inr (.inr fun slot here => ?_)))
            rw [gone] at here
            cases here
          next slot here =>
            split
            · exact .buffered entry
            next unwanted =>
              refine .refused entry (.inr (.inr (.inr fun slot' here' => ?_)))
              rw [here] at here'
              cases here'
              simpa using unwanted
    · have entry : m.buffered? cfg auth = none := by
        unfold VoteMessage.buffered?
        rw [known]
        exact if_neg inside
      rw [if_pos (Nat.not_lt.mp inside)]
      exact .outside entry

/-- A started, healthy engine between two inputs, at time `t`. -/
structure Live (t : Time) (e : Engine) : Prop where
  started : e.started = true
  ok : e.failed = false
  idle : e.pending = []
  clock : e.clock = t

theorem Live.run_eq (h : Live t e) (action : Engine → Engine) :
    { e with clock := t }.run cfg action = (action e).drainPending cfg := by
  have same : { e with clock := t } = e := by rw [← h.clock]
  rw [same]
  unfold Engine.run
  rw [if_neg (by simp [h.started, h.ok])]

/-- What one message does to a live engine, up to the bans of other peers. -/
structure Handled (cfg : Config) (auth : PeerID → Option Nat) (m : VoteMessage) (e e' : Engine) :
    Prop where
  clock : e'.clock = e.clock
  params : e'.params = e.params
  live : e'.failed = false → Live e.clock e'
  tooNew : e'.firstTooNewSlot cfg = e.firstTooNewSlot cfg
  bans : ∀ q, ¬ cfg.Member auth q → e'.bans q = e.noted m q

theorem Entered.members (entered : Entered cfg auth m e h)
    (inbox : ∀ p ∈ e.pendingVerify, cfg.Member auth p.src) :
    ∀ p ∈ h.pendingVerify, cfg.Member auth p.src := by
  intro p hp
  obtain ⟨l, eq, thinned⟩ := entered.inbox
  rw [eq] at hp
  rcases mem_append.mp hp with old | new
  · exact inbox p old
  · obtain ⟨src, member⟩ := VoteMessage.member_of_entry (Option.mem_toList.mp (thinned.mem new))
    exact src ▸ member

theorem inline_handled (m : VoteMessage) (live : Live t e)
    (inbox : ∀ p ∈ e.pendingVerify, cfg.Member auth p.src) :
    Handled cfg auth m e
        (e.handleMessageInline cfg t m.src (auth m.src) (.vote m.vote m.sig)) ∧
      (e.handleMessageInline cfg t m.src (auth m.src) (.vote m.vote m.sig)).pendingVerify = [] ∧
      Alike (cfg.Member auth) (e.handleMessageInline cfg t m.src (auth m.src) (.vote m.vote m.sig))
        ((e.pendingVerify ++ (m.buffered? cfg auth).toList).foldl
          (flushVote cfg (e.firstTooNewSlot cfg)) e) := by
  have entered := @handleMessage_entered cfg auth e m
  unfold handleMessageInline
  rw [live.run_eq]
  generalize e.handleMessage cfg m.src (auth m.src) (.vote m.vote m.sig) = h at entered ⊢
  have tooNew : h.firstTooNewSlot cfg = e.firstTooNewSlot cfg := entered.alike.firstTooNewSlot
  have members := entered.members inbox
  obtain ⟨same, flushed⟩ := @flush_spec cfg h _ (entered.queue.trans live.idle) members
  obtain ⟨l, eq, thinned⟩ := entered.inbox
  rw [eq] at members same
  rw [tooNew] at same
  refine ⟨⟨?_, ?_, fun ok => ⟨?_, ok, drainPending_pending _, ?_⟩, ?_, fun q hq => ?_⟩,
    flushed.inbox, same.trans (thinned.batch entered.alike _ members)⟩
  · exact flushed.clock.trans entered.alike.clock
  · exact flushed.params.trans entered.alike.params
  · exact flushed.started.trans (entered.alike.started.trans live.started)
  · exact flushed.clock.trans entered.alike.clock
  · exact flushed.firstTooNewSlot.trans tooNew
  · exact (flushed.bans q hq).trans (entered.bans q hq)

theorem drainPending_idle (idle : e.pending = []) : e.drainPending cfg = e := by
  unfold drainPending
  rw [idle]
  rfl

theorem input_handled (m : VoteMessage) (live : Live t e) :
    Entered cfg auth m e (e.step cfg t (m.input auth)) ∧
      Handled cfg auth m e (e.step cfg t (m.input auth)) ∧
      Live t (e.step cfg t (m.input auth)) := by
  have entered := @handleMessage_entered cfg auth e m
  have eq : e.step cfg t (m.input auth) =
      e.handleMessage cfg m.src (auth m.src) (.vote m.vote m.sig) := by
    have run := @Live.run_eq cfg e t live fun e =>
      e.handleMessage cfg m.src (auth m.src) (.vote m.vote m.sig)
    rw [drainPending_idle (entered.queue.trans live.idle)] at run
    exact run
  rw [eq]
  generalize e.handleMessage cfg m.src (auth m.src) (.vote m.vote m.sig) = h at entered ⊢
  have alive : Live t h :=
    ⟨entered.alike.started.trans live.started, entered.alike.failed.trans live.ok,
      entered.queue.trans live.idle, entered.alike.clock.trans live.clock⟩
  exact ⟨entered, ⟨entered.alike.clock, entered.alike.params, fun _ => live.clock ▸ alive,
    entered.alike.firstTooNewSlot, entered.bans⟩, alive⟩

theorem foldl_failed (failed : e.failed = true) (l : List PendingVote) :
    l.foldl (flushVote cfg tooNew) e = e := by
  induction l with
  | nil => rfl
  | cons p l ih =>
    have refused : Refused tooNew e p := .inl failed
    rw [foldl_cons, refused.flushVote_eq]
    exact ih

section

variable (closed : (!e.started || e.failed) = true) (clock : e.clock = t)
include closed clock

theorem run_refused (action : Engine → Engine) : { e with clock := t }.run cfg action = e := by
  have same : { e with clock := t } = e := by rw [← clock]
  rw [same]
  unfold Engine.run
  rw [if_pos closed]

theorem serial_refused (msgs : List VoteMessage) : e.serial cfg auth t msgs = e := by
  induction msgs with
  | nil => rfl
  | cons m msgs ih =>
    have refused : e.handleMessageInline cfg t m.src (auth m.src) (.vote m.vote m.sig) = e :=
      run_refused closed clock _
    unfold serial
    rw [foldl_cons, refused]
    exact ih

theorem batched_refused (msgs : List VoteMessage) : e.batched cfg auth t msgs = e := by
  have admitted : e.admission cfg auth t msgs = e := by
    induction msgs with
    | nil => rfl
    | cons m msgs ih =>
      have refused : e.step cfg t (m.input auth) = e := by
        unfold step VoteMessage.input
        exact run_refused closed clock _
      unfold admission
      rw [foldl_cons, refused]
      exact ih
  unfold batched
  rw [admitted]
  exact run_refused closed clock _

end

theorem serial_idle (idle : e.pending = []) (msgs : List VoteMessage) :
    (e.serial cfg auth t msgs).pending = [] := by
  induction msgs generalizing e with
  | nil => exact idle
  | cons m msgs ih =>
    apply ih
    change (e.handleMessageInline cfg t m.src (auth m.src) (.vote m.vote m.sig)).pending = []
    unfold handleMessageInline Engine.run
    split
    · exact idle
    · exact drainPending_pending _

/-- Checked one by one, the messages apply what is buffered and then their votes. -/
theorem serial_alike (msgs : List VoteMessage) (live : e.failed = false → Live t e)
    (clock : e.clock = t) (inbox : ∀ p ∈ e.pendingVerify, cfg.Member auth p.src)
    (batch : e.pendingVerify = [] ∨ msgs ≠ []) :
    Alike (cfg.Member auth) (e.serial cfg auth t msgs)
      ((e.pendingVerify ++ msgs.filterMap (VoteMessage.buffered? cfg auth)).foldl
        (flushVote cfg (e.firstTooNewSlot cfg)) e) := by
  induction msgs generalizing e with
  | nil =>
    have none : e.pendingVerify = [] := batch.resolve_right fun h => h rfl
    rw [none]
    exact .refl e
  | cons m msgs ih =>
    cases failed : e.failed with
    | true =>
      rw [serial_refused (by rw [failed, Bool.or_true]) clock, foldl_failed failed]
      exact .refl e
    | false =>
      obtain ⟨handled, emptied, alike⟩ := inline_handled m (live failed) inbox
      have rest := ih (fun ok => clock ▸ handled.live ok) (handled.clock.trans clock)
        (by rw [emptied]; intro p hp; cases hp) (.inl emptied)
      rw [emptied, handled.tooNew] at rest
      rw [VoteMessage.filterMap_entry, ← append_assoc, foldl_append]
      exact rest.trans (alike.foldl _ (VoteMessage.members msgs))

theorem admission_spec (msgs : List VoteMessage) (live : Live t e) :
    Live t (e.admission cfg auth t msgs) ∧
      Alike (cfg.Member auth) (e.admission cfg auth t msgs) e ∧
      ∃ l, (e.admission cfg auth t msgs).pendingVerify = e.pendingVerify ++ l ∧
        Thinned (e.firstTooNewSlot cfg) e (msgs.filterMap (VoteMessage.buffered? cfg auth)) l := by
  induction msgs generalizing e with
  | nil => exact ⟨live, .refl e, [], (append_nil _).symm, .nil⟩
  | cons m msgs ih =>
    obtain ⟨entered, handled, alive⟩ := @input_handled cfg auth e t m live
    obtain ⟨live', alike, l, eq, thinned⟩ := ih alive
    obtain ⟨l₁, eq₁, thinned₁⟩ := entered.inbox
    refine ⟨live', alike.trans entered.alike, l₁ ++ l, ?_, ?_⟩
    · rw [← append_assoc, ← eq₁]
      exact eq
    · rw [handled.tooNew] at thinned
      rw [VoteMessage.filterMap_entry]
      exact thinned₁.append (thinned.alike entered.alike (VoteMessage.members msgs))

theorem batched_idle (live : Live t e) (msgs : List VoteMessage) :
    (e.batched cfg auth t msgs).pending = [] := by
  obtain ⟨live', -⟩ := @admission_spec cfg auth e t msgs live
  have flush : e.batched cfg auth t msgs =
      ((e.admission cfg auth t msgs).flushVerify cfg).drainPending cfg := live'.run_eq _
  rw [flush]
  exact drainPending_pending _

theorem batched_alike (msgs : List VoteMessage) (live : Live t e)
    (inbox : ∀ p ∈ e.pendingVerify, cfg.Member auth p.src) :
    Alike (cfg.Member auth) (e.batched cfg auth t msgs)
        ((e.pendingVerify ++ msgs.filterMap (VoteMessage.buffered? cfg auth)).foldl
          (flushVote cfg (e.firstTooNewSlot cfg)) e) ∧
      ∀ q, ¬ cfg.Member auth q →
        (e.batched cfg auth t msgs).bans q = (e.admission cfg auth t msgs).bans q := by
  obtain ⟨live', alike, l, eq, thinned⟩ := @admission_spec cfg auth e t msgs live
  have flush : e.batched cfg auth t msgs =
      ((e.admission cfg auth t msgs).flushVerify cfg).drainPending cfg := live'.run_eq _
  rw [flush]
  generalize e.admission cfg auth t msgs = h at live' alike eq ⊢
  have members : ∀ p ∈ h.pendingVerify, cfg.Member auth p.src := by
    intro p hp
    rw [eq] at hp
    rcases mem_append.mp hp with old | new
    · exact inbox p old
    · exact VoteMessage.members msgs p (thinned.mem new)
  obtain ⟨same, flushed⟩ := @flush_spec cfg h _ live'.idle members
  rw [eq] at members same
  rw [alike.firstTooNewSlot] at same
  exact ⟨same.trans (thinned.batch alike _ members), flushed.bans⟩

theorem bans_outside (msgs : List VoteMessage) (live : Live t e) (live' : Live t h)
    (inbox : ∀ p ∈ e.pendingVerify, cfg.Member auth p.src) (params : e.params = h.params)
    (bans : ∀ q, ¬ cfg.Member auth q → e.bans q = h.bans q)
    (ok : (e.serial cfg auth t msgs).failed = false) (q : PeerID) (hq : ¬ cfg.Member auth q) :
    (e.serial cfg auth t msgs).bans q = (h.admission cfg auth t msgs).bans q := by
  induction msgs generalizing e h with
  | nil => exact bans q hq
  | cons m msgs ih =>
    obtain ⟨one, emptied, -⟩ := inline_handled m live inbox
    obtain ⟨-, other, live₂⟩ := @input_handled cfg auth h t m live'
    have alive : Live t (e.handleMessageInline cfg t m.src (auth m.src) (.vote m.vote m.sig)) := by
      refine live.clock ▸ one.live (Bool.eq_false_of_not_eq_true fun failed => ?_)
      have stuck := @serial_refused cfg auth _ _ (by rw [failed, Bool.or_true])
        (one.clock.trans live.clock) msgs
      have last := (congrArg Engine.failed stuck).symm.trans ok
      rw [failed] at last
      cases last
    refine ih alive live₂ (by rw [emptied]; intro p hp; cases hp)
      (one.params.trans (params.trans other.params.symm)) (fun p hp => ?_) ok
    rw [one.bans p hp, other.bans p hp]
    unfold noted isBanned
    rw [bans p hp, params, live.clock, live'.clock]

/-- The votes buffered in `e` come from validators. -/
def Known (cfg : Config) (auth : PeerID → Option Nat) (e : Engine) : Prop :=
  ∀ p ∈ e.pendingVerify, cfg.Member auth p.src

/-- A batch between two inputs of an engine, at the time `t` of the engine. -/
theorem batched_serial (msgs : List VoteMessage) (clock : e.clock = t) (known : e.Known cfg auth)
    (idle : e.started = true → e.pending = []) (batch : e.pendingVerify = [] ∨ msgs ≠ []) :
    Alike (cfg.Member auth) (e.batched cfg auth t msgs) (e.serial cfg auth t msgs) ∧
      ((e.batched cfg auth t msgs).failed = false →
        (e.batched cfg auth t msgs).bans = (e.serial cfg auth t msgs).bans ∧
        (e.batched cfg auth t msgs).reported = (e.serial cfg auth t msgs).reported) := by
  cases closed : (!e.started || e.failed) with
  | true =>
    rw [serial_refused closed clock, batched_refused closed clock]
    exact ⟨.refl e, fun _ => ⟨rfl, rfl⟩⟩
  | false =>
    obtain ⟨started, ok⟩ : e.started = true ∧ e.failed = false := by simpa using closed
    have live : Live t e := ⟨started, ok, idle started, clock⟩
    obtain ⟨flushed, kept⟩ := batched_alike msgs live known
    have alike := flushed.trans (serial_alike msgs (fun _ => live) clock known batch).symm
    refine ⟨alike, fun ok => ⟨funext fun q => ?_, ?_⟩⟩
    · by_cases member : cfg.Member auth q
      · exact alike.bans q member
      · rw [kept q member]
        exact (bans_outside msgs live live known rfl (fun _ _ => rfl) (alike.failed ▸ ok) q
          member).symm
    · have log := alike.log ok
      unfold reportLog at log
      rw [serial_idle live.idle, batched_idle live] at log
      simpa using log

end Engine

/-! ## Whole runs -/

/-- The transport authenticates each sender as one validator, or as none. -/
def Input.SentBy (auth : PeerID → Option Nat) : Input → Prop
  | .message src srcValidator _ => srcValidator = auth src
  | _ => True

theorem Engine.Known.tick {g : Grant} {e' : Engine} (h : e.Known cfg auth)
    (arrives : ∀ p, g.arrives p → p.idx < cfg.validators.length → cfg.Member auth p.src)
    (t : Tick cfg g e e') : e'.Known cfg auth := by
  have same {e' : Engine} (books : SameBooks e e') : e'.Known cfg auth := by
    unfold Known
    rw [books.pendingVerify]
    exact h
  cases t with
  | plain p => exact fun q hq => h q (p.pendingVerify hq)
  | fatal => exact same (Inner.fatal _ _).toSameBooks
  | stop => exact h
  | receive decoded here member =>
    intro q hq
    rcases mem_append.mp hq with old | new
    · exact h q old
    · rw [mem_singleton.mp new]
      exact arrives _ here member
  | cast => exact h
  | apply =>
    have blind := fun i v sig tolerate => @Blind.applyVote cfg i v sig tolerate
    intro q hq
    rw [(blind _ _ _ _).inbox e] at hq
    exact h q hq
  | save =>
    intro q hq
    rw [(Blind.handleCertificate _).inbox e] at hq
    exact h q hq
  | accept => exact same (Settles.acceptCandidate _ _).toSameBooks
  | moveOn _ queue =>
    have popped (l : List Deferred) : SameBooks e { e with pending := l } := {}
    exact same ((popped _).trans (Settles.onParentWaitDone _ _ _).toSameBooks)
  | finish => exact same (.finishCertificateSave _ _ _)
  | store => exact same (.storeSavedCertificate _ _ _)
  | advance => exact same (Inner.advancePresent _).toSameBooks

namespace Run

variable {cfg : Config} {bs : BootstrapState} {e : Engine}

theorem idle {admits : Input → Prop} (h : Run cfg bs admits e) (started : e.started = true) :
    e.pending = [] := by
  induction h with
  | start params clock =>
    rcases Engine.start_cases params clock bs [] with refused | ⟨-, e, he, stuck | ⟨-, opened⟩⟩
    · rw [refused] at started
      cases started
    · have replayed : Moves cfg (Ctx.replays bs.certificates)
          (View.recovered cfg bs []) e.view := by
        rw [he, ← Engine.view_prepare params clock bs []]
        exact Engine.replayCertificates_refines _ _ fun _ h => h
      have waiting : e.started = false := Moves.started replayed fun h => h
      rw [stuck, waiting] at started
      cases started
    · rw [opened]
      exact Engine.drainPending_pending _
  | @step e t input run _ ih =>
    have same : (e.step cfg t input).started = e.started := e.step_started t input
    rw [Engine.step_eq_stepWith]
    rcases Engine.stepWith_cases e t input with ⟨pending, eq⟩ | eq
    · rw [eq]
      exact subset_nil.mp (ih (same ▸ started) ▸ pending)
    · rw [eq]
      exact Engine.drainPending_pending _

theorem known (h : Run cfg bs (Input.SentBy auth) e) : e.Known cfg auth := by
  induction h with
  | start params clock =>
    rcases Engine.start_ticks cfg params clock bs [] with rejected | ⟨-, ticks⟩
    · rw [rejected]
      intro p hp
      cases hp
    · have prepared : ((Engine.new params clock bs []).prepare cfg bs.ourVotes).Known cfg auth := by
        intro p hp
        unfold Engine.prepare at hp
        split at hp <;> cases hp
      refine ticks.keep (fun h t => Engine.Known.tick h (fun p arrives => ?_) t) prepared
      exact arrives.elim
  | @step e t input run sent ih =>
    refine (Engine.step_ticks e t input).keep
      (fun h t => Engine.Known.tick h (fun p arrives inside => ?_) t) ih
    obtain ⟨v, -, rfl⟩ := arrives
    exact ⟨p.idx, sent.symm, inside⟩

end Run

/-- Votes checked in a batch leave the same records, weights and certificate saves as votes
checked one by one. Unless the batch makes the engine fail, the bans and the reports agree too. -/
theorem batched_votes_match_serial {cfg : Config} {bs : BootstrapState}
    {auth : PeerID → Option Nat} {e : Engine} (h : Run cfg bs (Input.SentBy auth) e) (t : Time)
    (msgs : List VoteMessage) (batch : e.pendingVerify = [] ∨ msgs ≠ []) :
    (e.batched cfg auth t msgs).pool = (e.serial cfg auth t msgs).pool ∧
    (e.batched cfg auth t msgs).journal = (e.serial cfg auth t msgs).journal ∧
    (e.batched cfg auth t msgs).failed = (e.serial cfg auth t msgs).failed ∧
    ((e.batched cfg auth t msgs).failed = false →
      (e.batched cfg auth t msgs).bans = (e.serial cfg auth t msgs).bans ∧
      (e.batched cfg auth t msgs).reported = (e.serial cfg auth t msgs).reported) := by
  -- every input sets the clock, so the engine may as well start at time `t`
  have same := @Engine.batched_serial cfg auth { e with clock := t } t msgs rfl h.known h.idle batch
  have moved : { e with clock := t }.batched cfg auth t msgs = e.batched cfg auth t msgs := by
    cases msgs <;> rfl
  have clocked : ({ e with clock := t }.serial cfg auth t msgs).pool =
        (e.serial cfg auth t msgs).pool ∧
      ({ e with clock := t }.serial cfg auth t msgs).journal = (e.serial cfg auth t msgs).journal ∧
      ({ e with clock := t }.serial cfg auth t msgs).failed = (e.serial cfg auth t msgs).failed ∧
      ({ e with clock := t }.serial cfg auth t msgs).bans = (e.serial cfg auth t msgs).bans ∧
      ({ e with clock := t }.serial cfg auth t msgs).reported =
        (e.serial cfg auth t msgs).reported := by
    cases msgs <;> exact ⟨rfl, rfl, rfl, rfl, rfl⟩
  rw [moved] at same
  obtain ⟨alike, healthy⟩ := same
  obtain ⟨pool, journal, failed, bans, reported⟩ := clocked
  refine ⟨alike.pool.trans pool, alike.journal.trans journal, alike.failed.trans failed, ?_⟩
  intro ok
  obtain ⟨sameBans, sameReports⟩ := healthy ok
  exact ⟨sameBans.trans bans, sameReports.trans reported⟩

/-- Two validators, the first of them local. -/
def pairConfig : Config :=
  { soloConfig with validators := [⟨List.replicate 32 0, 1⟩, ⟨List.replicate 32 1, 1⟩] }

/-- Peers 0 and 1 are the validators. -/
def pairAuth (src : PeerID) : Option Nat :=
  if src = 0 then some 0 else if src = 1 then some 1 else none

def pairVote (src : PeerID) (v : Vote) : VoteMessage := ⟨src, v, List.replicate 64 0⟩

def pairStart : Engine := (Engine.start pairConfig soloParams 0 ⟨0, [], []⟩ []).1

/-- Validator 1 votes twice, a stranger votes, and two votes of the same kind come in. -/
def pairBatch : List VoteMessage :=
  [pairVote 1 (notarizeVote ⟨0, 0⟩), pairVote 7 (notarizeVote ⟨0, 0⟩),
    pairVote 1 (finalizeVote ⟨0, 1⟩), pairVote 1 (notarizeVote ⟨0, 1⟩)]

theorem batched_votes_match_serial_pair :
    (pairStart.batched pairConfig pairAuth 1 pairBatch).reported ≠ [] ∧
    (pairStart.batched pairConfig pairAuth 1 pairBatch).failed = false ∧
    (pairStart.batched pairConfig pairAuth 1 pairBatch).bans 7 =
      (pairStart.serial pairConfig pairAuth 1 pairBatch).bans 7 ∧
    (pairStart.batched pairConfig pairAuth 1 pairBatch).reported =
      (pairStart.serial pairConfig pairAuth 1 pairBatch).reported := by
  have run : Run pairConfig ⟨0, [], []⟩ (Input.SentBy pairAuth) pairStart := .start soloParams 0
  obtain ⟨-, -, -, healthy⟩ :=
    batched_votes_match_serial run 1 pairBatch (.inl (by decide +kernel))
  have ok : (pairStart.batched pairConfig pairAuth 1 pairBatch).failed = false := by
    decide +kernel
  obtain ⟨bans, reported⟩ := healthy ok
  exact ⟨by decide +kernel, ok, congrFun bans 7, reported⟩

/-- A vote of validator 1 that no flush has checked yet. -/
def pairBuffered : Engine :=
  pairStart.step pairConfig 1 ((pairVote 1 (notarizeVote ⟨0, 0⟩)).input pairAuth)

def Engine.voteOf (e : Engine) (i : Nat) (s : UInt32) : Option Proven :=
  (e.pool.slots.get? s).bind fun slot => (slot.votes i).byKind .notarize

/-- A conflicting vote of the local validator makes the engine fail, and a batch then loses the
report that was queued before it. An empty batch still checks what was buffered before. -/
theorem batch_differs_from_serial :
    (Run pairConfig ⟨0, [], []⟩ (Input.SentBy pairAuth) pairStart ∧ pairStart.pendingVerify = [] ∧
      ∃ msgs, (pairStart.serial pairConfig pairAuth 1 msgs).reported ≠ [] ∧
        (pairStart.batched pairConfig pairAuth 1 msgs).reported = []) ∧
    Run pairConfig ⟨0, [], []⟩ (Input.SentBy pairAuth) pairBuffered ∧
      ((pairBuffered.serial pairConfig pairAuth 1 []).voteOf 1 0).isSome = false ∧
      ((pairBuffered.batched pairConfig pairAuth 1 []).voteOf 1 0).isSome = true := by
  refine ⟨⟨.start soloParams 0, by decide +kernel, ?_⟩, .step 1 (.start soloParams 0) rfl, ?_, ?_⟩
  · refine ⟨[pairVote 1 (notarizeVote ⟨0, 0⟩), pairVote 1 (finalizeVote ⟨0, 1⟩),
      pairVote 0 (notarizeVote ⟨0, 5⟩), pairVote 0 (finalizeVote ⟨0, 6⟩)], ?_, ?_⟩ <;>
      decide +kernel
  · decide +kernel
  · decide +kernel

end Gton.Simplex
