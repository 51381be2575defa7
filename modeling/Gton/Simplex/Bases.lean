import Gton.Simplex.Announce

/-!
# Bases and announced windows over whole runs

Storing a certificate keeps the frontier good: every open slot has the best parent as its
base, so the present slot always has one when its window is announced.
-/

namespace Gton.Simplex

open Frontier

/-- A journal answer brings a certificate of a slot below `b` only. -/
def Input.CertsBelow (b : UInt32) (input : Input) : Prop :=
  ∀ cert res, input = .certSaved cert res → cert.vote.slot < b

namespace Engine

variable {cfg : Config} {b : UInt32} {e e' e'' : Engine} {cert : Certificate} {slot : PoolSlot}
  {res : SaveResult}

/-- At most one window is announced. It starts at the present slot, on its best parent. -/
inductive Heralds (cfg : Config) (e e' : Engine) : Prop where
  | silent (windows : e'.windows.Sublist e.windows)
      (cursor : e'.pool.firstNonAnnouncedWindow = e.pool.firstNonAnnouncedWindow)
  | window (w : Window) (windows : e'.windows.Sublist (e.windows ++ [w]))
      (healthy : e.failed = false)
      (fresh : e.pool.firstNonAnnouncedWindow ≤ e'.pool.now / cfg.spw)
      (cursor : e'.pool.firstNonAnnouncedWindow = e'.pool.now / cfg.spw + 1)
      (observed : w.observedSlot = e'.pool.now)
      (start : w.startSlot = e'.pool.now - e'.pool.now % cfg.spw)
      (best : e'.pool.frontier.Best e'.pool.now w.base)

theorem Heralds.after (h : Heralds cfg e' e'') (windows : e'.windows.Sublist e.windows)
    (cursor : e'.pool.firstNonAnnouncedWindow = e.pool.firstNonAnnouncedWindow)
    (alive : e'.failed = false → e.failed = false) : Heralds cfg e e'' := by
  cases h with
  | silent w c => exact .silent (w.trans windows) (c.trans cursor)
  | window w ws healthy fresh c observed start best =>
    exact .window w (ws.trans (windows.append (.refl _))) (alive healthy) (cursor ▸ fresh) c
      observed start best

theorem Heralds.then (h : Heralds cfg e e') (windows : e''.windows.Sublist e'.windows)
    (cursor : e''.pool.firstNonAnnouncedWindow = e'.pool.firstNonAnnouncedWindow)
    (now : e''.pool.now = e'.pool.now)
    (certs : e''.pool.frontier.certs = e'.pool.frontier.certs)
    (last : e''.pool.frontier.last = e'.pool.frontier.last) : Heralds cfg e e'' := by
  cases h with
  | silent w c => exact .silent (windows.trans w) (cursor.trans c)
  | window w ws healthy fresh c observed start best =>
    exact .window w (windows.trans ws) healthy (now ▸ fresh) (by rw [cursor, c, now])
      (observed.trans now.symm)
      (by rw [start, now]) (now ▸ best.congr certs last)

/-- The effect of `advancePresent` on a pool with bases. -/
structure Advances (cfg : Config) (b : UInt32) (e e' : Engine) : Prop where
  frontier : e'.pool.frontier = { e.pool.frontier with now := e'.pool.now }
  present : e'.pool.frontier.Present b
  fatalErr : e'.fatalErr = e.fatalErr
  failed : e'.failed = e.failed
  parentWaits : e'.parentWaits = e.parentWaits
  heralds : Heralds cfg e e'

theorem windowObserved_eq (cfg : Config) (e : Engine) (s : UInt32) (base : ParentID) :
    ∃ v w, e.windowObserved cfg s base = { e with voter := v }.enqueue (.handleWindow w) ∧
      w.base = base ∧ w.observedSlot = s ∧ w.startSlot = s - s % cfg.spw := by
  unfold windowObserved
  by_cases voter : cfg.hasVoter = true
  · simp only [voter, if_true]
    exact ⟨_, _, rfl, rfl, rfl, rfl⟩
  · simp only [voter, Bool.false_eq_true, if_false]
    exact ⟨e.voter, _, rfl, rfl, rfl, rfl⟩

section

variable (ok : e.failed = false) (founded : e.pool.frontier.Founded b)
  (present : e.pool.frontier.Present b)
include ok founded present

theorem announceWindow_advances (open_ : ¬ e.pool.frontier.Settled e.pool.now) :
    Advances cfg b e (e.announceWindow cfg) := by
  obtain ⟨q, offered⟩ := founded.exists_offer present.live present.settled
  have highest := founded.bases _ present.live fun skipped => open_ (.inr skipped)
  obtain ⟨base, hbase⟩ : ∃ base, e.pool.baseAt e.pool.now = some base ∧
      e.pool.frontier.Best e.pool.now base := by
    unfold Pool.baseAt
    by_cases zero : e.pool.now = 0
    · refine ⟨genesis, if_pos zero, ?_⟩
      change e.pool.frontier.Offers e.pool.now q at offered
      rw [zero] at offered ⊢
      have only := founded.offers_zero offered
      subst only
      refine ⟨offered, fun r hr => ?_⟩
      rw [founded.offers_zero hr, ParentID.compare_self]
      simp
    · rw [if_neg zero]
      cases hq : e.pool.base e.pool.now with
      | none => exact absurd offered (highest.empty hq q)
      | some base =>
        refine ⟨base, hq, founded.best ?_⟩
        rw [← hq]
        exact highest
  obtain ⟨found, best⟩ := hbase
  unfold announceWindow
  dsimp only
  split
  · exact ⟨rfl, present, rfl, rfl, rfl, .silent (.refl _) rfl⟩
  next fresh =>
    have here : ({ e.pool with firstNonAnnouncedWindow := e.pool.now / cfg.spw + 1 } : Pool).baseAt
        e.pool.now = some base := found
    rw [here]
    dsimp only
    obtain ⟨v, w, eq, hbase, observed, start⟩ := windowObserved_eq cfg
      { e with pool := { e.pool with firstNonAnnouncedWindow := e.pool.now / cfg.spw + 1 } }
      e.pool.now base
    rw [eq]
    refine ⟨rfl, present, rfl, rfl, rfl, .window w ?_ ok ?_ rfl observed start ?_⟩
    · simp [windows, enqueue, Deferred.window?]
    · exact UInt32.not_lt.mp fresh
    · rw [hbase]
      exact best

omit ok founded present in
theorem advancePresent_waiting (waiting : e.started = false) : e.advancePresent cfg = e := by
  unfold advancePresent
  rw [if_pos (by simp [waiting])]

theorem advancePresent_advances : Advances cfg b e (e.advancePresent cfg) := by
  by_cases started : e.started = true
  · have spec := Pool.presentLoop_spec founded.toRooted 4294967296 e.pool.now present.live
      present.below (by have := b.toNat_lt; omega) present.settled
    unfold advancePresent
    rw [if_neg (by simp [started, ok])]
    rw [if_pos spec.1]
    generalize (e.pool.presentLoop 4294967296 e.pool.now).1 = m at spec ⊢
    have advanced : Advances cfg b { e with pool := { e.pool with now := m } } _ :=
      announceWindow_advances ok (founded.congr rfl rfl rfl rfl) spec.2.2 spec.2.1
    exact ⟨advanced.frontier, advanced.present, advanced.fatalErr, advanced.failed,
      advanced.parentWaits, advanced.heralds.after (.refl _) rfl fun h => h⟩
  · rw [advancePresent_waiting (by simpa using started)]
    exact ⟨rfl, present, rfl, rfl, rfl, .silent (.refl _) rfl⟩

omit present in
/-- A present slot at or below a finalized one jumps past it. -/
theorem leavePruned_advances {s : UInt32} (horizon : e.pool.frontier.horizon = s + 1)
    (small : s + 1 ≤ b) (ahead : ¬ e.pool.now ≤ s → e.pool.frontier.Present b) :
    Advances cfg b e (if e.pool.now ≤ s then
      { e with pool := { e.pool with now := s + 1 } }.advancePresent cfg else e) := by
  split
  · have present : ({ e.pool with now := s + 1 } : Pool).frontier.Present b := by
      refine ⟨?_, small, fun j from_ lower => ?_⟩
      · change e.pool.frontier.horizon ≤ s + 1
        rw [horizon]
        exact UInt32.le_refl _
      · change e.pool.frontier.horizon ≤ j at from_
        rw [horizon] at from_
        exact absurd lower (UInt32.not_lt.mpr from_)
    have advanced : Advances cfg b { e with pool := { e.pool with now := s + 1 } } _ :=
      advancePresent_advances ok (founded.congr rfl rfl rfl rfl) present
    exact ⟨advanced.frontier, advanced.present, advanced.fatalErr, advanced.failed,
      advanced.parentWaits, advanced.heralds.after (.refl _) rfl fun h => h⟩
  next later =>
    exact ⟨rfl, ahead later, rfl, rfl, rfl, .silent (.refl _) rfl⟩

end

/-! ## Certificate transitions -/

theorem frontier_setCert (here : e.pool.slots.get? cert.vote.slot = some slot) :
    (e.setSlot cert.vote.slot (slot.setCert cert)).pool.frontier = e.pool.frontier.put cert := by
  have live := SlotMap.le_of_get? here
  have certs (k : VoteKind) : (slot.setCert cert).certByKind k =
      if k = cert.vote.kind then some cert else slot.certByKind k := by
    unfold PoolSlot.setCert
    cases k <;> split <;> rename_i kind <;> simp [PoolSlot.certByKind, kind]
  have base : (slot.setCert cert).availableBase = slot.availableBase := by
    unfold PoolSlot.setCert
    split <;> rfl
  rw [frontier_setSlot _ live, base, Pool.availableBase_of_get? here, Function.update_eq_self]
  dsimp only
  congr 1
  funext s k
  by_cases hs : s = cert.vote.slot
  · subst hs
    rw [Function.update_self, certs, Pool.certByKind_of_get? here]
    simp [Pool.frontier]
  · simp [hs, Pool.frontier]

theorem frontier_addAvailableBase {n : UInt32} (live : e.pool.slots.firstNonFinalized ≤ n)
    (q : ParentID) : (e.addAvailableBase n q).pool.frontier = e.pool.frontier.offer n q := by
  have here := SlotMap.get?_of_le live
  generalize (e.pool.slots.slots n).getD default = slot at here
  have base : (slot.addAvailableBase q).availableBase = addBase slot.availableBase q := by
    unfold PoolSlot.addAvailableBase addBase
    cases h : slot.availableBase with
    | none => rfl
    | some old =>
      dsimp only
      split
      · rfl
      · exact h
  have certs : (slot.addAvailableBase q).certByKind = slot.certByKind := by
    funext k
    unfold PoolSlot.addAvailableBase
    split
    · cases k <;> rfl
    · split
      · cases k <;> rfl
      · rfl
  have written : e.addAvailableBase n q = e.setSlot n (slot.addAvailableBase q) := by
    unfold addAvailableBase SlotMap.modify
    rw [here]
    rfl
  rw [written, frontier_setSlot _ live, certs, base, Pool.certByKind_of_get? here,
    Pool.availableBase_of_get? here, Function.update_eq_self]
  rfl

theorem frontier_recordFinal (live : e.pool.slots.firstNonFinalized ≤ cert.vote.slot)
    (up : cert.vote.slot < cert.vote.slot + 1) :
    (e.recordFinal cert).pool.frontier = e.pool.frontier.finalize cert := by
  have horizon : (e.pool.slots.notifyFinalized cert.vote.slot).firstNonFinalized =
      cert.vote.slot + 1 := by
    rw [SlotMap.firstNonFinalized_notifyFinalized, if_neg (by grind)]
  have read (s : UInt32) : (e.pool.slots.notifyFinalized cert.vote.slot).get? s =
      if s < cert.vote.slot + 1 then none else e.pool.slots.get? s := by
    split
    next below =>
      exact SlotMap.get?_eq_none.mpr (by rw [horizon]; exact below)
    next above =>
      exact SlotMap.get?_notifyFinalized_of_le (by rw [horizon]; exact UInt32.not_lt.mp above)
  unfold Pool.frontier Frontier.finalize recordFinal
  congr 1
  · funext s k
    unfold Pool.certAt
    rw [read]
    split
    · cases k <;> rfl
    · rfl
  · funext s
    unfold Pool.base
    dsimp only
    rw [read]
    split
    · rfl
    · rfl

/-- What a stored certificate leaves of the certificates and the horizon. -/
structure Absorbs (f : Frontier) (cert : Certificate) (g : Frontier) : Prop where
  horizon : g.horizon = if cert.vote.kind = .finalize then cert.vote.slot + 1 else f.horizon
  certs : g.certs = if cert.vote.kind = .finalize then (f.finalize cert).certs
    else (f.put cert).certs
  last : g.last = if cert.vote.kind = .finalize then parent cert.vote.id else f.last

/-- Nothing but the pool and queued notifications differ. -/
structure Steady (e e' : Engine) : Prop where
  fatalErr : e'.fatalErr = e.fatalErr := by rfl
  failed : e'.failed = e.failed := by rfl
  parentWaits : e'.parentWaits = e.parentWaits := by rfl
  started : e'.started = e.started := by rfl
  windows : e'.windows = e.windows := by rfl
  cursor : e'.pool.firstNonAnnouncedWindow = e.pool.firstNonAnnouncedWindow := by rfl

theorem Steady.refl (e : Engine) : Steady e e := {}

theorem Steady.trans (h : Steady e e') (h' : Steady e' e'') : Steady e e'' where
  fatalErr := h'.fatalErr.trans h.fatalErr
  failed := h'.failed.trans h.failed
  parentWaits := h'.parentWaits.trans h.parentWaits
  started := h'.started.trans h.started
  windows := h'.windows.trans h.windows
  cursor := h'.cursor.trans h.cursor

theorem Steady.notify {d : Deferred} (plain : d.window? = none) (cond : Bool) :
    Steady e (if cond then e.enqueue d else e) := by
  cases cond with
  | false => exact .refl e
  | true => exact { Steady.refl e with windows := by simp [Engine.windows, enqueue, plain] }

/-- A certificate whose slot already holds it runs its transition. -/
structure Transits (cfg : Config) (b : UInt32) (f : Frontier) (cert : Certificate)
    (e e' : Engine) : Prop where
  good : e'.pool.frontier.Good b
  absorbs : Absorbs f cert e'.pool.frontier
  fatalErr : e'.fatalErr = e.fatalErr
  failed : e'.failed = e.failed
  parentWaits : e'.parentWaits = e.parentWaits
  heralds : Heralds cfg e e'
  waiting : e.started = false → e'.started = false ∧ e'.windows = e.windows ∧ e'.pool.now =
    if cert.vote.kind = .finalize ∧ e.pool.now ≤ cert.vote.slot then cert.vote.slot + 1
    else e.pool.now

section Transition

variable {f : Frontier} {cert : Certificate} (good : f.Good b) (live : f.horizon ≤ cert.vote.slot)
  (small : cert.vote.slot < b) (ok : e.failed = false) (stored : e.pool.frontier = f.put cert)
  {g : Frontier}

/-- The last part of each transition: the present slot moves on. -/
theorem Transits.advance (ok : e.failed = false) (steady : Steady e e')
    (frontier : e'.pool.frontier = g) (founded : g.Founded b) (ended : g.Ended)
    (present : g.Present b) (absorbs : Absorbs f cert g) (now : e'.pool.now =
      if cert.vote.kind = .finalize ∧ e.pool.now ≤ cert.vote.slot then cert.vote.slot + 1
      else e.pool.now) : Transits cfg b f cert e (e'.advancePresent cfg) := by
  subst frontier
  have advanced : Advances cfg b e' (e'.advancePresent cfg) :=
    advancePresent_advances (steady.failed.trans ok) founded present
  have same := advanced.frontier
  refine ⟨⟨?_, ?_, advanced.present⟩, ?_, advanced.fatalErr.trans steady.fatalErr,
    advanced.failed.trans steady.failed, advanced.parentWaits.trans steady.parentWaits,
    advanced.heralds.after (steady.windows ▸ .refl _) steady.cursor fun _ => ok,
    fun waiting => ?_⟩
  · rw [same]
    exact founded.congr rfl rfl rfl rfl
  · rw [same]
    exact ended.congr (fun _ => Iff.rfl) rfl
  · rw [same]
    exact ⟨absorbs.horizon, absorbs.certs, absorbs.last⟩
  · have idle : e'.started = false := steady.started.trans waiting
    rw [advancePresent_waiting idle]
    exact ⟨idle, steady.windows, now⟩

include good live small stored

theorem next_after (pool : e'.pool = e.pool) :
    ∃ n, e'.pool.nextNonSkippedSlotAfter cert.vote.slot = .slot n ∧ f.Next cert.vote.slot n ∧
      e'.pool.slots.firstNonFinalized ≤ n := by
  rw [pool]
  have horizon : e.pool.slots.firstNonFinalized = f.horizon := congrArg Frontier.horizon stored
  have first : e.pool.slots.firstNonFinalized ≤ cert.vote.slot + 1 := by
    rw [horizon]
    exact UInt32.le_trans live (UInt32.le_of_lt (good.founded.lt_succ small))
  have found := Pool.next_spec good.founded.toRooted good.ended small first (fun s above => ?_)
    (congrArg Frontier.runs stored)
  · obtain ⟨n, found, next⟩ := found
    have above := next.above
    exact ⟨n, found, next, by rw [horizon]; grind⟩
  · rw [stored]
    by_cases kind : cert.vote.kind = .skip
    · rw [skipped_put kind]
      have ne : s ≠ cert.vote.slot := by grind
      simp [ne]
    · exact skipped_put_of_ne kind s

include ok

theorem onNotarCertificate_transits (kind : cert.vote.kind = .notarize)
    (absent : f.certs cert.vote.slot .notarize = none) :
    Transits cfg b f cert e (e.onNotarCertificate cfg cert) := by
  have steady : Steady e (if cfg.hasVoter then
      (e.enqueue (.onNotarized cert.vote.id cert)).enqueue (.voterNotarizationObserved cert.vote.id)
      else e.enqueue (.onNotarized cert.vote.id cert)) :=
    (Steady.notify rfl true).trans (Steady.notify rfl cfg.hasVoter)
  have pool : (if cfg.hasVoter then
      (e.enqueue (.onNotarized cert.vote.id cert)).enqueue (.voterNotarizationObserved cert.vote.id)
      else e.enqueue (.onNotarized cert.vote.id cert)).pool = e.pool := by
    split <;> rfl
  unfold onNotarCertificate
  dsimp only
  generalize (if cfg.hasVoter then _ else _ : Engine) = e₁ at steady pool ⊢
  obtain ⟨n, found, next, above⟩ := next_after good live small stored pool
  rw [show e₁.pool.nextNonSkippedSlotAfter cert.vote.id.slot = .slot n from found]
  have frontier := frontier_addAvailableBase above (parent cert.vote.id)
  rw [pool, stored] at frontier
  have other : cert.vote.kind ≠ .finalize := by simp [kind]
  refine Transits.advance ok (steady.trans { Steady.refl _ with }) frontier
    (good.founded.notarize live small next kind absent) ?_ ?_ ?_ ?_
  · refine good.ended.congr (fun s => ?_) rfl
    exact skipped_put_of_ne (by simp [kind]) s
  · exact good.present.mono rfl rfl fun j => settled_put
  · exact ⟨(if_neg other).symm, (if_neg other).symm, (if_neg other).symm⟩
  · rw [if_neg fun h => other h.1, ← pool]
    rfl

theorem onSkipCertificate_transits (kind : cert.vote.kind = .skip)
    (absent : ¬ f.Skipped cert.vote.slot) (base : slot.availableBase = f.base cert.vote.slot) :
    Transits cfg b f cert e (e.onSkipCertificate cfg slot cert) := by
  obtain ⟨n, found, next, above⟩ := next_after good live small stored rfl
  have other : cert.vote.kind ≠ .finalize := by simp [kind]
  have runs : e.pool.skipRuns = f.runs := congrArg Frontier.runs stored
  unfold onSkipCertificate
  dsimp only
  rw [found]
  dsimp only
  generalize hr : (if n = cert.vote.slot + 1 then _ else _ : List UInt32) = newRuns
  rw [runs] at hr
  obtain ⟨e₀, eq₀, steady₀, now₀, above₀, frontier₀⟩ : ∃ e₀ : Engine,
      { e with pool := { e.pool with skipRuns := newRuns } } = e₀ ∧ Steady e e₀ ∧
      e₀.pool.now = e.pool.now ∧ e₀.pool.slots.firstNonFinalized ≤ n ∧
      e₀.pool.frontier = { f.put cert with runs := newRuns } := by
    refine ⟨_, rfl, {}, rfl, above, ?_⟩
    rw [← stored]
    rfl
  rw [eq₀, base]
  have founded := good.founded.skip live small next kind absent
  have finish {e₁ : Engine} (steady : Steady e e₁) (now : e₁.pool.now = e.pool.now)
      (frontier : e₁.pool.frontier =
        { (f.put cert).handOver cert.vote.slot n with runs := newRuns }) :
      Transits cfg b f cert e (e₁.advancePresent cfg) := by
    refine Transits.advance ok steady frontier (founded.congr rfl rfl rfl rfl) ?_ ?_ ?_ ?_
    · exact good.ended.skip small next good.founded.toRooted kind rfl hr.symm
    · exact good.present.mono rfl rfl fun j => settled_put
    · exact ⟨(if_neg other).symm, (if_neg other).symm, (if_neg other).symm⟩
    · rw [if_neg fun h => other h.1]
      exact now
  cases hb : f.base cert.vote.slot with
  | none =>
    refine finish steady₀ now₀ (frontier₀.trans ?_)
    unfold Frontier.handOver Frontier.rebase
    rw [show (f.put cert).base cert.vote.slot = none from hb]
    simp [mergeBase]
  | some q =>
    refine finish (steady₀.trans { Steady.refl _ with }) now₀ ?_
    unfold Frontier.handOver Frontier.rebase
    rw [frontier_addAvailableBase above₀, frontier₀,
      show (f.put cert).base cert.vote.slot = some q from hb]
    rfl

/-- A finalization clears the run ends below it last. -/
theorem finalizeSlot_transits (kind : cert.vote.kind = .finalize)
    (unskipped : ¬ f.Skipped cert.vote.slot) (steady : Steady e e')
    (frontier : e'.pool.frontier = g) (horizon : g.horizon = f.horizon)
    (now : g.now = f.now) (runs : g.runs = f.runs) (certs : g.certs = (f.put cert).certs)
    (founded : (g.finalize cert).Founded b) :
    Transits cfg b f cert e (e'.finalizeSlot cfg cert) := by
  have up := good.founded.lt_succ small
  have pruned := finalize_put up certs
  have live' : e'.pool.slots.firstNonFinalized ≤ cert.vote.slot := by
    have : e'.pool.slots.firstNonFinalized = g.horizon := congrArg Frontier.horizon frontier
    rw [this, horizon]
    exact live
  have recorded := frontier_recordFinal live' up
  rw [frontier] at recorded
  -- The slot map is pruned and the notifications are queued.
  obtain ⟨e₁, eq₁, steady₁, frontier₁⟩ : ∃ e₁ : Engine,
      (if cfg.hasVoter then ((e'.recordFinal cert).enqueue (.onFinalized cert.vote.id cert)).enqueue
        (.voterFinalizationObserved cert.vote.id)
      else (e'.recordFinal cert).enqueue (.onFinalized cert.vote.id cert)) = e₁ ∧ Steady e e₁ ∧
      e₁.pool.frontier = g.finalize cert := by
    have record : Steady e' (e'.recordFinal cert) := { Steady.refl e' with }
    refine ⟨_, rfl, steady.trans (record.trans ((Steady.notify rfl true).trans
      (Steady.notify rfl cfg.hasVoter))), ?_⟩
    rw [← recorded]
    split <;> rfl
  have now₁ : e₁.pool.now = f.now := (congrArg Frontier.now frontier₁).trans now
  have now₀ : e.pool.now = f.now := congrArg Frontier.now stored
  have ahead : ¬ e₁.pool.now ≤ cert.vote.slot → e₁.pool.frontier.Present b := by
    intro later
    rw [frontier₁]
    refine ⟨?_, ?_, fun j from_ lower => ?_⟩
    · change cert.vote.slot + 1 ≤ g.now
      rw [now]
      grind
    · change g.now ≤ b
      rw [now]
      exact good.present.below
    · change cert.vote.slot + 1 ≤ j at from_
      change j < g.now at lower
      rw [now] at lower
      have settled := good.present.settled j (by grind) lower
      unfold Frontier.Settled Frontier.Skipped at settled ⊢
      rw [pruned, finalize_certs from_]
      exact settled
  have advanced : Advances cfg b e₁ (if e₁.pool.now ≤ cert.vote.slot then
      { e₁ with pool := { e₁.pool with now := cert.vote.slot + 1 } }.advancePresent cfg else e₁) :=
    leavePruned_advances (steady₁.failed.trans ok) (frontier₁ ▸ founded)
      (congrArg Frontier.horizon frontier₁) (by grind) ahead
  have waiting : e₁.started = false → (if e₁.pool.now ≤ cert.vote.slot then
      { e₁ with pool := { e₁.pool with now := cert.vote.slot + 1 } }.advancePresent cfg else e₁) =
      { e₁ with pool := { e₁.pool with
        now := if e₁.pool.now ≤ cert.vote.slot then cert.vote.slot + 1 else e₁.pool.now } } := by
    intro idle
    split
    · exact advancePresent_waiting idle
    · rfl
  unfold finalizeSlot
  dsimp only
  rw [eq₁]
  change Transits cfg b f cert e ((if e₁.pool.now ≤ cert.vote.slot then
      { e₁ with pool := { e₁.pool with now := cert.vote.slot + 1 } }.advancePresent cfg
      else e₁).sweepFinal cert.vote.slot)
  generalize (if e₁.pool.now ≤ cert.vote.slot then _ else e₁ : Engine) = e₂ at advanced waiting ⊢
  have frontier₂ : e₂.pool.frontier = { g.finalize cert with now := e₂.pool.now } := by
    rw [advanced.frontier, frontier₁]
  have swept : (e₂.sweepFinal cert.vote.slot).pool.frontier =
      { g.finalize cert with
        now := e₂.pool.now, runs := eraseUpTo f.runs cert.vote.slot } := by
    have same : e₂.pool.skipRuns = f.runs := (congrArg Frontier.runs frontier₂).trans runs
    rw [← same]
    exact congrArg (fun h : Frontier =>
      ({ h with runs := eraseUpTo e₂.pool.skipRuns cert.vote.slot } : Frontier)) frontier₂
  refine ⟨⟨?_, ?_, ?_⟩, ?_, advanced.fatalErr.trans steady₁.fatalErr,
    advanced.failed.trans steady₁.failed, advanced.parentWaits.trans steady₁.parentWaits, ?_,
    fun idle => ?_⟩
  · rw [swept]
    exact founded.congr rfl rfl rfl rfl
  · rw [swept]
    exact good.ended.finalize good.founded.toRooted small unskipped pruned rfl
  · exact advanced.present.mono rfl rfl fun _ settled => settled
  · rw [swept]
    exact ⟨(if_pos kind).symm, by rw [if_pos kind]; exact pruned, (if_pos kind).symm⟩
  · exact (advanced.heralds.after (steady₁.windows ▸ .refl _) steady₁.cursor fun _ => ok).then
      (.refl _) rfl rfl rfl rfl
  · have idle₁ : e₁.started = false := steady₁.started.trans idle
    have same := waiting idle₁
    subst same
    refine ⟨idle₁, steady₁.windows, ?_⟩
    rw [now₀, ← now₁]
    simp [sweepFinal, kind]

theorem onFinalCertificate_transits (kind : cert.vote.kind = .finalize)
    (unskipped : ¬ f.Skipped cert.vote.slot)
    (agree : ∀ c, f.certs cert.vote.slot .notarize = some c → c.vote.id = cert.vote.id)
    (certs : slot.certByKind = (f.put cert).certs cert.vote.slot) :
    Transits cfg b f cert e (e.onFinalCertificate cfg slot cert) := by
  have notar : slot.notarCert = f.certs cert.vote.slot .notarize :=
    (congrFun certs .notarize).trans (by simp [Frontier.put, kind])
  have skip : slot.skipCert = none :=
    (congrFun certs .skip).trans (by simpa [Frontier.put, kind, Frontier.Skipped] using unskipped)
  have final : slot.finalCert = some cert :=
    (congrFun certs .finalize).trans (by simp [Frontier.put, kind])
  have notarized : slot.notarizedBlock = some cert.vote.id := by
    unfold PoolSlot.notarizedBlock
    cases hn : slot.notarCert with
    | none => simp [final]
    | some c => exact congrArg some (agree c (notar.symm.trans hn))
  have up := good.founded.lt_succ small
  obtain ⟨n, found, next, above⟩ := next_after good live small stored rfl
  unfold onFinalCertificate
  rw [if_neg (by simp [skip]), if_neg (by simp [notarized])]
  cases hn : f.certs cert.vote.slot .notarize with
  | some c =>
    rw [if_pos (by simp [notar, hn])]
    have founded := good.founded.finalize_notarized live small unskipped hn (agree c hn) next
    exact finalizeSlot_transits good live small ok stored kind unskipped (.refl e) stored rfl rfl
      rfl rfl (founded.congr rfl (finalize_put up rfl) rfl rfl)
  | none =>
    rw [if_neg (by simp [notar, hn]),
      show e.pool.nextNonSkippedSlotAfter cert.vote.id.slot = .slot n
      from found]
    have frontier := frontier_addAvailableBase above (parent cert.vote.id)
    rw [stored] at frontier
    have founded := good.founded.finalize_fresh live small unskipped hn next
    exact finalizeSlot_transits good live small ok stored kind unskipped { Steady.refl e with }
      frontier rfl rfl rfl rfl (founded.congr rfl (finalize_put up rfl) rfl rfl)

end Transition

/-! ## Storing a certificate -/

/-- One certificate at most is served: a healthy result has a good frontier. -/
structure Served (cfg : Config) (b : UInt32) (e e' : Engine) : Prop where
  good : e'.failed = false → e.failed = false ∧ e'.pool.frontier.Good b
  errors : ∀ err, e'.fatalErr = some err → e.fatalErr = some err ∨ err.isPresent = false
  heralds : Heralds cfg e e'

/-- A search for a run end only fails if the frontier was not good. -/
structure Serves (cfg : Config) (b : UInt32) (e e' : Engine) : Prop extends Served cfg b e e' where
  found : e'.fatalErr = some .noRunEnd → e.fatalErr = some .noRunEnd ∨
    ¬ (e.failed = false → e.pool.frontier.Good b)

theorem Serves.after (h : Serves cfg b e' e'') (aside : Apart e e') : Serves cfg b e e'' where
  good ok := ⟨aside.alive (h.good ok).1, (h.good ok).2⟩
  errors err herr := (h.errors err herr).elim (aside.errors err) .inr
  heralds := h.heralds.after aside.windows aside.cursor aside.alive
  found stuck := by
    rcases h.found stuck with earlier | bad
    · exact (aside.found earlier).imp_right fun ⟨ok, bad⟩ good => bad b (good ok)
    · exact .inr fun good => bad fun ok => aside.frontier ▸ good (aside.alive ok)

theorem Serves.then (h : Serves cfg b e e') (aside : Apart e' e'') : Serves cfg b e e'' where
  good ok := by
    rw [aside.frontier]
    exact h.good (aside.alive ok)
  errors err herr := (aside.errors err herr).elim (h.errors err) .inr
  heralds := h.heralds.then aside.windows aside.cursor (congrArg Frontier.now aside.frontier)
    (congrArg Frontier.certs aside.frontier) (congrArg Frontier.last aside.frontier)
  found stuck := (aside.found stuck).elim h.found fun ⟨ok, bad⟩ => absurd (h.good ok).2 (bad b)

theorem Apart.serves (h : Apart e e') (good : e.failed = false → e.pool.frontier.Good b) :
    Serves cfg b e e' := by
  have still : Serves cfg b e e :=
    ⟨⟨fun ok => ⟨ok, good ok⟩, fun _ h => .inl h, .silent (.refl _) rfl⟩, .inl⟩
  exact still.then h

section Store

variable {cert : Certificate} {slot : PoolSlot} (good : e.pool.frontier.Good b)
  (small : cert.vote.slot < b) (ok : e.failed = false)
  (here : e.pool.slots.get? cert.vote.slot = some slot)
  (absent : slot.certByKind cert.vote.kind = none)
include good small ok here absent

/-- The finalize transition contradicts neither a skip nor a notarize certificate. -/
def Consistent (f : Frontier) (cert : Certificate) : Prop :=
  cert.vote.kind = .finalize → ¬ f.Skipped cert.vote.slot ∧
    ∀ c, f.certs cert.vote.slot .notarize = some c → c.vote.id = cert.vote.id

/-- The engine that runs the transition of a certificate it has just recorded. -/
def recordCert (e : Engine) (slot : PoolSlot) (cert : Certificate) : Engine :=
  ((if e.suppressCertBroadcast then e else e.emit (.broadcastToRandom (.certificate cert))).setSlot
    cert.vote.slot (slot.setCert cert)).emit (.certStored cert)

omit good small ok here in
theorem storeSavedCertificate_eq : e.storeSavedCertificate cfg slot cert =
    if ((e.recordCert slot cert).certTransition cfg (slot.setCert cert) cert).failed then
      (e.recordCert slot cert).certTransition cfg (slot.setCert cert) cert
    else ((e.recordCert slot cert).certTransition cfg (slot.setCert cert)
      cert).resolveParentWaits := by
  unfold storeSavedCertificate recordCert
  rw [if_neg (by simp [absent])]

omit good small ok absent in
theorem recordCert_steady : Steady e (e.recordCert slot cert) ∧
    (e.recordCert slot cert).pool.frontier = e.pool.frontier.put cert ∧
    (e.recordCert slot cert).pool.now = e.pool.now := by
  have frontier := frontier_setCert here
  unfold recordCert
  split
  · exact ⟨{}, frontier, rfl⟩
  · exact ⟨{}, frontier, rfl⟩

theorem certTransition_transits (consistent : Consistent e.pool.frontier cert) :
    Transits cfg b e.pool.frontier cert (e.recordCert slot cert)
      ((e.recordCert slot cert).certTransition cfg (slot.setCert cert) cert) := by
  obtain ⟨steady, stored, -⟩ := recordCert_steady here
  have ok' := steady.failed.trans ok
  have live := SlotMap.le_of_get? here
  have certs := Pool.certByKind_of_get? here
  have none_here : e.pool.frontier.certs cert.vote.slot cert.vote.kind = none := by
    rw [← absent, certs]
    rfl
  unfold certTransition
  split
  next kind =>
    rw [kind] at none_here
    exact onNotarCertificate_transits good live small ok' stored kind none_here
  next kind =>
    rw [kind] at none_here
    refine onSkipCertificate_transits good live small ok' stored kind
      (fun skipped => skipped none_here) ?_
    rw [show (slot.setCert cert).availableBase = slot.availableBase by
      unfold PoolSlot.setCert; split <;> rfl]
    exact Pool.availableBase_of_get? here
  next kind =>
    obtain ⟨unskipped, agree⟩ := consistent kind
    refine onFinalCertificate_transits good live small ok' stored kind unskipped agree ?_
    have put := frontier_setCert here
    have read : (e.setSlot cert.vote.slot (slot.setCert cert)).pool.slots.get? cert.vote.slot =
        some (slot.setCert cert) := SlotMap.get?_set_self live
    rw [Pool.certByKind_of_get? read]
    exact congrFun (congrArg Frontier.certs put) cert.vote.slot

omit good small ok absent in
theorem certTransition_conflict (clash : ¬ Consistent e.pool.frontier cert) :
    ∃ err, err.isPresent = false ∧ err ≠ .noRunEnd ∧
      (e.recordCert slot cert).certTransition cfg (slot.setCert cert) cert =
        (e.recordCert slot cert).fatal err := by
  have certs := Pool.certByKind_of_get? here
  have kind : cert.vote.kind = .finalize := by
    by_contra other
    exact clash fun h => absurd h other
  have notar : (slot.setCert cert).notarCert = slot.notarCert := by
    unfold PoolSlot.setCert
    simp [kind]
  have skip : (slot.setCert cert).skipCert = slot.skipCert := by
    unfold PoolSlot.setCert
    simp [kind]
  have notar' : e.pool.frontier.certs cert.vote.slot .notarize = slot.notarCert :=
    (congrFun certs .notarize).symm
  have skip' : e.pool.frontier.certs cert.vote.slot .skip = slot.skipCert :=
    (congrFun certs .skip).symm
  unfold certTransition
  rw [kind]
  unfold onFinalCertificate
  dsimp only
  split
  · exact ⟨_, rfl, by simp, rfl⟩
  next unskipped =>
    split
    · exact ⟨_, rfl, by simp, rfl⟩
    next agrees =>
      refine absurd (fun _ => ⟨fun skipped => ?_, fun c hc => ?_⟩) clash
      · rw [skip, ← skip'] at unskipped
        exact skipped (by simpa using unskipped)
      · rw [notar'] at hc
        unfold PoolSlot.notarizedBlock at agrees
        rw [notar, hc] at agrees
        simpa using agrees

omit absent in
theorem storeSavedCertificate_served : Serves cfg b e (e.storeSavedCertificate cfg slot cert) := by
  cases absent : slot.certByKind cert.vote.kind with
  | some c =>
    unfold storeSavedCertificate
    rw [if_pos (by simp [absent])]
    exact (Apart.fatal rfl (by simp)).serves fun _ => good
  | none =>
    obtain ⟨steady, stored, -⟩ := recordCert_steady here
    rw [storeSavedCertificate_eq absent]
    by_cases consistent : Consistent e.pool.frontier cert
    · have t : Transits cfg b e.pool.frontier cert (e.recordCert slot cert) _ :=
        certTransition_transits good small ok here absent consistent
      have served : Serves cfg b e
          ((e.recordCert slot cert).certTransition cfg (slot.setCert cert) cert) :=
        { good := fun _ => ⟨ok, t.good⟩
          errors := fun err herr => .inl ((t.fatalErr.trans steady.fatalErr) ▸ herr)
          found := fun stuck => .inl ((t.fatalErr.trans steady.fatalErr) ▸ stuck)
          heralds := t.heralds.after (steady.windows ▸ .refl _) steady.cursor fun _ => ok }
      split
      · exact served
      · exact served.then (.settles (.resolveLoop _ _ _))
    · obtain ⟨err, harmless, other, eq⟩ :
          ∃ err : FatalError, err.isPresent = false ∧ err ≠ .noRunEnd ∧
          (e.recordCert slot cert).certTransition cfg (slot.setCert cert) cert = _ :=
        certTransition_conflict here consistent
      rw [eq, if_pos (failed_fatal _ _)]
      have aside : Apart (e.recordCert slot cert) ((e.recordCert slot cert).fatal err) :=
        Apart.fatal harmless other
      exact
        { good := fun alive => by rw [failed_fatal] at alive; cases alive
          errors := fun err' herr => by
            unfold fatal at herr
            split at herr
            · exact .inl (steady.fatalErr ▸ herr)
            · cases herr
              exact .inr harmless
          found := fun stuck => by
            unfold fatal at stuck
            split at stuck
            · exact .inl (steady.fatalErr ▸ stuck)
            · cases stuck
              exact absurd rfl other
          heralds := .silent (steady.windows ▸ aside.windows) (aside.cursor.trans steady.cursor) }

end Store

/-! ## One step -/

theorem finishCertificateSave_served
    (good : e.pool.frontier.Good b) (small : cert.vote.slot < b) (ok : e.failed = false) :
    Serves cfg b e (e.finishCertificateSave cfg cert res) := by
  apply finishCertificateSave_keep (P := Serves cfg b e) (R := fun e₁ slot' => Apart e e₁ ∧
    e₁.failed = e.failed ∧ ∃ slot, e.pool.slots.get? cert.vote.slot = some slot ∧
      slot'.certByKind = slot.certByKind ∧ slot'.availableBase = slot.availableBase)
  · exact (Apart.refl e).serves fun _ => good
  · exact (Apart.fatal rfl (by simp)).serves fun _ => good
  · exact fun slot here => ⟨.refl e, rfl, slot, here, rfl, rfl⟩
  · rintro e₁ slot s ev ⟨aside, kept⟩ - -
    exact ⟨aside.trans .reportMisbehavior, kept⟩
  · exact fun _ _ _ kept _ => kept
  · rintro e₁ slot' ⟨aside, healthy, slot, here, certs, base⟩ pool here'
    have written : Apart e₁ (e₁.setSlot cert.vote.slot slot') :=
      .setSlot (by rw [pool]; exact here) certs base
    have entered := aside.trans written
    have good' : (e₁.setSlot cert.vote.slot slot').pool.frontier.Good b := by
      rw [entered.frontier]
      exact good
    have served : Serves cfg b (e₁.setSlot cert.vote.slot slot') _ :=
      storeSavedCertificate_served good' small (healthy.trans ok) here'
    exact served.after entered

theorem completeAsync_served {action : Engine → Engine}
    (good : e.failed = false → e.pool.frontier.Good b)
    (serves : e.failed = false → Serves cfg b e (action e)) :
    Serves cfg b e (e.completeAsync cfg action) := by
  unfold completeAsync
  split
  · exact (Apart.refl e).serves good
  next ok =>
    exact (serves (Bool.eq_false_of_not_eq_true ok)).then Apart.drainPending

theorem certSaved_served
    (good : e.failed = false → e.pool.frontier.Good b) (small : cert.vote.slot < b) :
    Serves cfg b e (e.certSaved cfg cert res) := by
  unfold certSaved
  dsimp only
  split
  · have answered : Apart e (e.answerCert ⟨cert, decide (res = SaveResult.alreadySaved)⟩ res) :=
      { Apart.refl e with }
    refine Serves.after (completeAsync_served good fun ok => ?_) answered
    exact finishCertificateSave_served (good ok) small ok
  · exact (Apart.refl e).serves good

theorem step_served {t : Time} {input : Input} (good : e.failed = false → e.pool.frontier.Good b)
    (below : input.CertsBelow b) : Serves cfg b e (e.step cfg t input) := by
  by_cases saved : ∃ cert res, input = .certSaved cert res
  · obtain ⟨cert, res, rfl⟩ := saved
    have clock : Apart e { e with clock := t } := {}
    exact Serves.after (certSaved_served good (below cert res rfl)) clock
  · refine (Apart.step fun cert res h => ?_).serves good
    exact saved ⟨cert, res, h⟩

/-! ## Recovery -/

/-- An engine in the middle of its certificate replay. -/
structure Replaying (b : UInt32) (e : Engine) : Prop where
  good : e.pool.frontier.Good b
  ok : e.failed = false
  waits : e.parentWaits = []
  idle : e.started = false
  quiet : e.windows = []
  unsaved : ∀ s k, e.view.saving s k = false

theorem err?_of_failed (e : Engine) (err : FatalError) (ok : e.failed = false) :
    (e.fatal err).err? = some (.fatal err) := by
  have panicked : e.panicked = false := by
    cases h : e.panicked with
    | false => rfl
    | true => simp [failed, h] at ok
  unfold fatal err?
  simp [ok, panicked]

theorem err?_of_healthy (ok : e.failed = false) : e.err? = none := by
  unfold failed at ok
  simp only [Bool.or_eq_false_iff] at ok
  unfold err?
  simpa [ok.2] using ok.1.1

theorem certTransition_unsaved (here : e.pool.slots.get? cert.vote.slot = some slot)
    (unsaved : ∀ s k, e.view.saving s k = false) (s : UInt32) (k : VoteKind) :
    ((e.recordCert slot cert).certTransition cfg (slot.setCert cert) cert).view.saving s k =
    false := by
  unfold recordCert
  have gossip : (if e.suppressCertBroadcast then e
      else e.emit (.broadcastToRandom (.certificate cert))).pool = e.pool := by
    split <;> rfl
  generalize (if e.suppressCertBroadcast then e else _ : Engine) = e₁ at gossip ⊢
  have unsaved₁ (s : UInt32) (k : VoteKind) : e₁.view.saving s k = false := by
    rw [← unsaved s k]
    unfold view
    rw [gossip]
  obtain ⟨u, stored, quiet⟩ := certTransition_stores cfg (e := e₁) (by rw [gossip]; exact here)
  rw [quiet.saving]
  have put : (e₁.view.storeCert cert).saving s k = false := by
    unfold View.storeCert
    dsimp only
    by_cases hs : s = cert.vote.slot
    · subst hs
      by_cases hk : k = cert.vote.kind
      · subst hk
        simp
      · rw [Function.update_self, Function.update_of_ne hk]
        exact unsaved₁ _ _
    · rw [Function.update_of_ne hs]
      exact unsaved₁ _ _
  cases stored with
  | final =>
    unfold View.finalizeCert View.prunePool
    dsimp only
    split
    · rfl
    · exact put
  | _ => exact put

section Replay

variable {cert : Certificate} {slot : PoolSlot} (h : Replaying b e)
  (small : cert.vote.slot < b) (here : e.pool.slots.get? cert.vote.slot = some slot)
  (absent : slot.certByKind cert.vote.kind = none)
include h small here absent

/-- Replaying a certificate that contradicts none before it. -/
theorem Replaying.store (consistent : Consistent e.pool.frontier cert) :
    Replaying b (e.storeSavedCertificate cfg slot cert) ∧
      Absorbs e.pool.frontier cert (e.storeSavedCertificate cfg slot cert).pool.frontier ∧
      (e.storeSavedCertificate cfg slot cert).pool.now =
        if cert.vote.kind = .finalize ∧ e.pool.now ≤ cert.vote.slot then cert.vote.slot + 1
        else e.pool.now := by
  obtain ⟨steady, -, now⟩ := recordCert_steady here
  have t : Transits cfg b e.pool.frontier cert (e.recordCert slot cert) _ :=
    certTransition_transits h.good small h.ok here absent consistent
  have unsaved (s : UInt32) (k : VoteKind) :
      ((e.recordCert slot cert).certTransition cfg (slot.setCert cert) cert).view.saving s k =
        false := certTransition_unsaved here h.unsaved s k
  rw [storeSavedCertificate_eq absent]
  generalize (e.recordCert slot cert).certTransition cfg (slot.setCert cert) cert =
    e' at t unsaved ⊢
  have ok : e'.failed = false := t.failed.trans (steady.failed.trans h.ok)
  have waits : e'.parentWaits = [] := t.parentWaits.trans (steady.parentWaits.trans h.waits)
  have resolved : e'.resolveParentWaits = e' := by
    unfold resolveParentWaits
    rw [waits]
    rfl
  obtain ⟨idle, windows, moved⟩ := t.waiting (steady.started.trans h.idle)
  rw [if_neg (by simp [ok]), resolved]
  refine ⟨⟨t.good, ok, waits, idle, windows.trans (steady.windows.trans h.quiet), unsaved⟩,
    t.absorbs, ?_⟩
  rw [moved, now]

omit small in
/-- Replaying a finalization over a skip or another candidate is an error. -/
theorem Replaying.conflict (clash : ¬ Consistent e.pool.frontier cert) :
    (e.storeSavedCertificate cfg slot cert).err? ≠ none := by
  obtain ⟨steady, -, -⟩ := recordCert_steady here
  obtain ⟨err, -, -, eq⟩ : ∃ err : FatalError, err.isPresent = false ∧ err ≠ .noRunEnd ∧
      (e.recordCert slot cert).certTransition cfg (slot.setCert cert) cert = _ :=
    certTransition_conflict here clash
  rw [storeSavedCertificate_eq absent, eq, if_pos (failed_fatal _ _),
    err?_of_failed _ _ (steady.failed.trans h.ok)]
  simp

end Replay

theorem replayCertificates_replaying (certs : List Certificate) (h : Replaying b e)
    (small : ∀ cert ∈ certs, cert.vote.slot < b)
    (done : (e.replayCertificates cfg certs).2 = none) :
    Replaying b (e.replayCertificates cfg certs).1 := by
  induction certs generalizing e with
  | nil => exact h
  | cons cert certs ih =>
    have rest := fun c hc => small c (List.mem_cons_of_mem cert hc)
    unfold replayCertificates at done ⊢
    split at done
    · exact ih h rest done
    next slot here =>
      split at done
      next needs =>
        have absent : slot.certByKind cert.vote.kind = none := by
          unfold PoolSlot.needs at needs
          simp only [Bool.and_eq_true, Option.isNone_iff_eq_none] at needs
          exact needs.1
        by_cases consistent : Consistent e.pool.frontier cert
        · have next : Replaying b (e.storeSavedCertificate cfg slot cert) :=
            (h.store (small cert List.mem_cons_self) here absent consistent).1
          rw [if_pos needs]
          dsimp only at done ⊢
          rw [err?_of_healthy next.ok] at done ⊢
          exact ih next rest done
        · have clash : (e.storeSavedCertificate cfg slot cert).err? ≠ none :=
            h.conflict here absent consistent
          dsimp only at done
          split at done
          · cases done
          next none_ =>
            exact absurd none_ clash
      · cases done

theorem prepare_frontier (params : Params) (clock : Time) (bs : BootstrapState)
    (trace : List Event) : ((new params clock bs trace).prepare cfg bs.ourVotes).pool.frontier =
      Frontier.initial := by
  obtain ⟨e, eq, pool⟩ : ∃ e : Engine, (if cfg.hasVoter
      then (new params clock bs trace).bootstrapVoter cfg bs.ourVotes
      else new params clock bs trace) = e ∧ e.pool = (new params clock bs trace).pool := by
    refine ⟨_, rfl, ?_⟩
    split <;> rfl
  have certs : (new params clock bs trace).pool.certAt = fun _ _ => none := by
    funext s k
    cases k <;> rfl
  unfold prepare
  rw [eq, frontier_addAvailableBase (by rw [pool]; exact UInt32.le_refl _), pool]
  unfold Frontier.offer Frontier.rebase Pool.frontier
  rw [certs]
  rfl

theorem prepare_replaying (bound : b ≤ lastSlot) (params : Params) (clock : Time)
    (bs : BootstrapState) : Replaying b ((new params clock bs []).prepare cfg bs.ourVotes) := by
  have good : ((new params clock bs []).prepare cfg bs.ourVotes).pool.frontier.Good b := by
    rw [prepare_frontier]
    exact initial_good bound
  refine ⟨good, ?_, ?_, ?_, ?_, fun s k => ?_⟩
  case refine_5 =>
    unfold prepare
    rw [view_addAvailableBase]
    split <;> cases k <;> rfl
  all_goals unfold prepare; dsimp only; split <;> rfl

section

variable (good : e.failed = false → e.pool.frontier.Good b)
include good

theorem advancePresent_served : Serves cfg b e (e.advancePresent cfg) := by
  cases ok : e.failed with
  | true =>
    have still : e.advancePresent cfg = e := by
      unfold advancePresent
      rw [if_pos (by simp [ok])]
    rw [still]
    exact (Apart.refl e).serves good
  | false =>
    obtain ⟨founded, ended, present⟩ := good ok
    have advanced : Advances cfg b e (e.advancePresent cfg) :=
      advancePresent_advances ok founded present
    refine ⟨⟨fun _ => ⟨ok, ?_, ?_, advanced.present⟩, fun err herr => ?_, advanced.heralds⟩, ?_⟩
    · rw [advanced.frontier]
      exact founded.congr rfl rfl rfl rfl
    · rw [advanced.frontier]
      exact ended.congr (fun _ => Iff.rfl) rfl
    · exact .inl (advanced.fatalErr ▸ herr)
    · exact fun stuck => .inl (advanced.fatalErr ▸ stuck)

theorem openSession_served : Serves cfg b e (e.openSession cfg) := by
  have skipped : Apart e (if cfg.hasVoter then e.castStartupWindowSkips cfg else e) := by
    split
    · exact Apart.castStartupWindowSkips
    · exact Apart.refl e
  unfold openSession
  dsimp only
  generalize (if cfg.hasVoter then _ else e : Engine) = e₁ at skipped ⊢
  have begun : Apart e₁ { e₁ with
      started := true, standstillAt := some (e₁.clock + e₁.params.standstillTimeout) } :=
    { Apart.refl e₁ with }
  have opened := skipped.trans begun
  generalize ({ e₁ with
    started := true, standstillAt := some (e₁.clock + e₁.params.standstillTimeout) } : Engine) = e₂
    at opened ⊢
  refine ((advancePresent_served fun ok => ?_).after opened).then Apart.drainPending
  rw [opened.frontier]
  exact good (opened.alive ok)

/-- The part of `Start` after the replay: one window at most is announced. -/
theorem startSession_served (votes : List Vote) : Serves cfg b e (e.startSession cfg votes) := by
  have loud : Apart e { e with suppressCertBroadcast := false } := {}
  have drained : Apart e ({ e with suppressCertBroadcast := false }.drainPending cfg) :=
    loud.trans Apart.drainPending
  have voted (e : Engine) : Apart e (votes.foldl (replayVote cfg) e) :=
    Apart.replayVotes votes e
  have replayed := drained.trans (voted _)
  refine (openSession_served fun ok => ?_).after replayed
  rw [replayed.frontier]
  exact good (replayed.alive ok)

end

end Engine

end Gton.Simplex
