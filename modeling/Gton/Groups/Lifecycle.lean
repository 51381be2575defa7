import Gton.Groups.Tracker

/-!
# The lifecycle of sessions

`Tracker.Apply` reports how each state changes the sessions. Whoever follows the transitions from
the start has the sessions of the snapshot; no session is added twice, and none is removed that
is not there.
-/

namespace Gton.Groups

open Gton.Shard
open Gton.Lib.Fallible List

/-- Where a session stands for a consumer of the transitions. -/
inductive Phase
  | absent | running | prepared
  deriving DecidableEq

def TransitionKind.before : TransitionKind → Phase
  | .started | .prepared => .absent
  | .promoted | .discarded => .prepared
  | .stopped => .running

def TransitionKind.after : TransitionKind → Phase
  | .started | .promoted => .running
  | .prepared => .prepared
  | .stopped | .discarded => .absent

/-- What one transition of the session does; nothing is added that is present, and nothing
removed that is absent. -/
def Phase.step (phase : Phase) (kind : TransitionKind) : Option Phase :=
  if phase = kind.before then some kind.after else none

/-- The running and the prepared sessions. -/
abbrev Lifecycle := Hash → Phase

/-- Follow one transition. -/
def Lifecycle.step (l : Lifecycle) (x : Transition) : Option Lifecycle :=
  ((l x.session.id).step x.kind).map (Function.update l x.session.id)

/-- A run of `Apply`, with all transitions it reports. -/
def Tracker.applyAll (env : Env) (t : Tracker) (inputs : List ApplyInput) :
    Except TrackerError (Tracker × List Transition) :=
  inputs.foldlM (fun r input => do
    let (t, transitions) ← r.1.apply env input
    return (t, r.2 ++ transitions)) (t, [])

/-- Sessions of different shards or catchain seqnos have different ids. -/
def Env.Separates (env : Env) : Prop :=
  ∀ g g', env.groupHash g = env.groupHash g' →
    g.workchain = g'.workchain ∧ g.shard = g'.shard ∧ g.catchainSeqno = g'.catchainSeqno

/-! ## One state -/

/-- The kinds of a session's transitions. -/
def kindsOf (id : Hash) (xs : List Transition) : List TransitionKind :=
  xs.filterMap fun x => if x.session.id = id then some x.kind else none

variable {xs : List Transition} {l : Lifecycle} {id : Hash} {active future : List Session}
  {shard : ShardID} {asOf : Int} {f : Session → Session} {env : Env} {t : Tracker} {st : State}
  {previous : Option Snapshot} {s : Session}

theorem fold_of_each {l' : Lifecycle}
    (each : ∀ id, (kindsOf id xs).foldlM Phase.step (l id) = some (l' id)) :
    xs.foldlM Lifecycle.step l = some l' := by
  induction xs generalizing l with
  | nil => exact congrArg some (funext fun id => Option.some.inj (each id))
  | cons x xs ih =>
    have here := each x.session.id
    rw [kindsOf, filterMap_cons, if_pos rfl] at here
    obtain ⟨phase, moved, rest⟩ := Option.bind_eq_some_iff.mp here
    rw [foldlM_cons, Lifecycle.step, moved]
    refine ih fun id => ?_
    by_cases eq : id = x.session.id
    · rw [eq, Function.update_self]
      exact rest
    · rw [Function.update_of_ne eq]
      simpa [kindsOf, Ne.symm eq] using each id

def ids (sessions : List Session) : List Hash := sessions.map Session.id

@[simp] theorem sessionByID_isSome {xs : List Session} :
    (sessionByID xs id).isSome = true ↔ id ∈ ids xs := by
  simp [sessionByID, ids]

@[simp] theorem sessionByID_eq_none {xs : List Session} :
    sessionByID xs id = none ↔ id ∉ ids xs := by
  simp [sessionByID, ids]

theorem kinds_of_one (id : Hash) (k : Option TransitionKind) {xs : List Session}
    {f : Session → Option TransitionKind} (distinct : (ids xs).Nodup)
    (h : ∀ s, f s = if s.id = id then k else none) :
    xs.filterMap f = if id ∈ ids xs then k.toList else [] := by
  induction xs with
  | nil => rfl
  | cons s xs ih =>
    obtain ⟨fresh, distinct⟩ := List.nodup_cons.mp distinct
    rw [filterMap_cons, h, ih distinct]
    by_cases eq : s.id = id
    · rw [if_pos eq, if_neg (eq ▸ fresh), if_pos (eq ▸ mem_cons_self)]
      cases k <;> rfl
    · simp [ids, eq, Ne.symm eq]

/-- The phase of a session in a snapshot with these sessions. -/
def phaseIn (active future : List Hash) : Lifecycle := fun id =>
  if id ∈ active then .running else if id ∈ future then .prepared else .absent

theorem transitions_fold {p : Snapshot}
    (distinct : (ids p.active).Nodup ∧ (ids p.future).Nodup ∧ (ids active).Nodup ∧
      (ids future).Nodup) (oldApart : (ids p.active).Disjoint (ids p.future))
    (newApart : (ids active).Disjoint (ids future)) :
    (transitions p active future).foldlM Lifecycle.step (phaseIn (ids p.active) (ids p.future)) =
      some (phaseIn (ids active) (ids future)) := by
  refine fold_of_each fun id => ?_
  obtain ⟨d₁, d₂, d₃, d₄⟩ := distinct
  have kept (s : Session) : (reconcileActive p s).id = s.id := by
    unfold reconcileActive
    split
    · rfl
    · split <;> rfl
  simp only [kindsOf, transitions, filterMap_append, filterMap_map, filterMap_filter,
    filterMap_filterMap]
  rw [kinds_of_one id (if id ∈ ids active then none else some .stopped) d₁,
    kinds_of_one id (if id ∈ ids active ∨ id ∈ ids future then none else some .discarded) d₂,
    kinds_of_one id (if id ∈ ids p.active then none
      else if id ∈ ids p.future then some .promoted else some .started) d₃,
    kinds_of_one id (if id ∈ ids p.future then none else some .prepared) d₄]
  · have phases {a f : Prop} (h : a → ¬ f) : a ∧ ¬ f ∨ ¬ a ∧ f ∨ ¬ a ∧ ¬ f := by tauto
    rcases phases (oldApart (a := id)) with ⟨a, f⟩ | ⟨a, f⟩ | ⟨a, f⟩ <;>
      rcases phases (newApart (a := id)) with ⟨a', f'⟩ | ⟨a', f'⟩ | ⟨a', f'⟩ <;>
      simp [a, f, a', f', phaseIn, Phase.step, TransitionKind.before, TransitionKind.after]
  all_goals grind [sessionByID_isSome, sessionByID_eq_none, Option.isNone_iff_eq_none]

/-! ## The sessions of a state -/

namespace State

variable {lib : ShardLib} {st : State} {d : ShardDescription}

theorem workchain_shardParent {child parent : ShardID} (ok : shardParent lib child = .ok parent) :
    parent.workchain = child.workchain := by
  simp only [shardParent, guard_eq_ok] at ok
  obtain ⟨-, -, same⟩ := ok
  cases same
  rfl

theorem workchain_shardChildren {parent left right : ShardID}
    (ok : shardChildren lib parent = .ok (left, right)) :
    left.workchain = parent.workchain ∧ right.workchain = parent.workchain := by
  simp only [shardChildren, guard_eq_ok] at ok
  obtain ⟨-, -, same⟩ := ok
  cases same
  exact ⟨rfl, rfl⟩

/-- Different shards of the basechain. -/
def Distinct (targets : List Target) : Prop :=
  (targets.map Target.shard).Nodup ∧ ∀ t ∈ targets, t.shard.workchain = basechainWorkchain

theorem Distinct.append {targets targets' : List Target} {genesis : List BlockID}
    {registered : List ShardDescription} (h : Distinct targets)
    (base : shard.workchain = basechainWorkchain)
    (ok : appendTarget targets ⟨shard, genesis, registered⟩ = .ok targets') :
    Distinct targets' := by
  obtain ⟨fresh, rfl⟩ := by simpa using guard_eq_ok.mp ok
  constructor
  · rw [map_append]
    refine h.1.append (nodup_singleton _) ?_
    simpa using fresh
  · simpa [or_imp, forall_and, base] using h.2

theorem addTarget_distinct {acc acc' : List Target × List ShardID}
    (h : Distinct acc.1) (ok : st.addTarget lib acc d = .ok acc') : Distinct acc'.1 := by
  unfold addTarget at ok
  -- Every branch goes through `appendTarget`, with a shard of the descriptor's workchain.
  grind [→ Distinct.append, → workchain_shardChildren, → workchain_shardParent, bind_eq_ok,
    pure_eq_ok]

theorem nodup_appendShard {shards shards' : List ShardID} (h : shards.Nodup)
    (ok : appendShard shards shard = .ok shards') : shards'.Nodup := by
  obtain ⟨fresh, rfl⟩ := by simpa using guard_eq_ok.mp ok
  exact h.append (nodup_singleton _) (by simpa using fresh)

theorem addFutureShard_nodup {deadline : Int} {acc acc' : List ShardID × List ShardID}
    (h : acc.1.Nodup) (ok : st.addFutureShard lib deadline acc d = .ok acc') : acc'.1.Nodup := by
  unfold addFutureShard at ok
  grind [→ nodup_appendShard, bind_eq_ok, pure_eq_ok]

theorem currentTargets_nodup {targets : List Target} (ok : st.currentTargets lib = .ok targets) :
    (targets.map Target.shard).Nodup := by
  unfold currentTargets at ok
  split at ok
  · cases ok
    simp
  · obtain ⟨acc, loop, done⟩ := bind_eq_ok.mp ok
    cases done
    obtain ⟨distinct, base⟩ : Distinct acc.1 := foldlM_keeps (P := fun acc => Distinct acc.1)
      (fun _ => addTarget_distinct) (by simp [Distinct]) loop
    have perm : (sortByShard Target.shard acc.1).Perm acc.1 := perm_insertionSort ..
    rw [map_cons, nodup_cons, (perm.map _).nodup_iff]
    refine ⟨fun mem => ?_, distinct⟩
    obtain ⟨t, ht, same⟩ := List.mem_map.mp mem
    have other := base t (perm.mem_iff.mp ht)
    rw [same] at other
    cases other

theorem futureShards_nodup {horizon : Int} {shards : List ShardID}
    (ok : st.futureShards lib asOf horizon = .ok shards) : shards.Nodup := by
  obtain ⟨deadline, -, ok⟩ := bind_eq_ok.mp ok
  split at ok
  · cases ok
    simp
  · obtain ⟨acc, loop, done⟩ := bind_eq_ok.mp ok
    cases done
    have distinct : acc.1.Nodup :=
      foldlM_keeps (P := fun acc => acc.1.Nodup) (fun _ => addFutureShard_nodup) (by simp) loop
    exact (perm_insertionSort ..).nodup_iff.mpr distinct

end State

/-- The id is the hash of a group of the session's shard and catchain seqno. -/
def Session.Keyed (env : Env) (s : Session) : Prop :=
  ∃ g, s.id = env.groupHash g ∧ g.workchain = s.shard.workchain ∧ g.shard = s.shard.shard ∧
    g.catchainSeqno = s.catchainSeqno

/-- A session built for its shard, `ahead` of the shard's catchain seqno. -/
def Session.Built (env : Env) (st : State) (ahead : UInt32) (s : Session) : Prop :=
  s.Keyed env ∧ ∃ cc, st.catchainSeqnoFor env.toShardLib s.shard = .ok cc ∧
    s.catchainSeqno = cc + ahead

/-- A change of sessions that keeps what they are known by. -/
def Keeps (f : Session → Session) : Prop :=
  ∀ s, (f s).id = s.id ∧ (f s).shard = s.shard ∧ (f s).catchainSeqno = s.catchainSeqno

theorem keeps_id : Keeps fun s => s := fun _ => ⟨rfl, rfl, rfl⟩

theorem Keeps.ids (h : Keeps f) (xs : List Session) : ids (xs.map f) = Groups.ids xs := by
  simp [Groups.ids, Function.comp_def, (h _).1]

theorem Keeps.keyed {xs : List Session} (keeps : Keeps f)
    (h : ∀ s ∈ xs, s.Keyed env) : ∀ s ∈ xs.map f, s.Keyed env := by
  grind [Keeps, Session.Keyed]

section

variable (separates : env.Separates)
include separates

theorem Session.Keyed.eq {s' : Session} (h : s.Keyed env) (h' : s'.Keyed env)
    (same : s.id = s'.id) : s.shard = s'.shard ∧ s.catchainSeqno = s'.catchainSeqno := by
  obtain ⟨g, hg, w, p, c⟩ := h
  obtain ⟨g', hg', w', p', c'⟩ := h'
  obtain ⟨ew, ep, ec⟩ := separates g g' (by rw [← hg, ← hg', same])
  refine ⟨?_, by rw [← c, ← c', ec]⟩
  rw [show s.shard = ⟨g.workchain, g.shard⟩ by rw [w, p], ew, ep, w', p']

theorem Session.Built.apart
    (h : ∀ s ∈ active, s.Built env st 0) (h' : ∀ s ∈ future, s.Built env st 1) :
    (ids active).Disjoint (ids future) := by
  intro id mem mem'
  obtain ⟨s, hs, rfl⟩ := List.mem_map.mp mem
  obtain ⟨s', hs', same⟩ := List.mem_map.mp mem'
  obtain ⟨keyed, cc, hc, seqno⟩ := h s hs
  obtain ⟨keyed', cc', hc', seqno'⟩ := h' s' hs'
  obtain ⟨shard, eq⟩ := keyed.eq separates keyed' same.symm
  rw [shard, hc'] at hc
  cases hc
  grind

theorem sessions_built {α : Type} {xs : List α} {key : α → ShardID} {ahead : UInt32}
    {f : α → Except TrackerError Session} {ys : List Session} (distinct : (xs.map key).Nodup)
    (each : ∀ {x s}, f x = .ok s → s.Built env st ahead ∧ s.shard = key x)
    (ok : xs.mapM f = .ok ys) :
    (∀ s ∈ Tracker.sortSessions ys, s.Built env st ahead) ∧
      (ids (Tracker.sortSessions ys)).Nodup := by
  have perm : (Tracker.sortSessions ys).Perm ys := perm_insertionSort ..
  obtain ⟨pairs, rfl, rfl, each'⟩ := mapM_pairs ok
  constructor
  · intro s mem
    obtain ⟨p, hp, rfl⟩ := List.mem_map.mp (perm.mem_iff.mp mem)
    exact (each (each' p hp)).1
  · unfold ids
    rw [(perm.map _).nodup_iff, map_map]
    rw [map_map] at distinct
    rw [List.Nodup, pairwise_map] at distinct ⊢
    refine distinct.imp_of_mem fun hp hq ne same => ne ?_
    obtain ⟨built, shard⟩ := each (each' _ hp)
    obtain ⟨built', shard'⟩ := each (each' _ hq)
    exact shard.symm.trans ((built.1.eq separates built'.1 same).1.trans shard')

end

namespace Tracker

/-- The active sessions of the snapshot before are keyed. -/
def Keyed (env : Env) (previous : Option Snapshot) : Prop :=
  ∀ p, previous = some p → ∀ s ∈ p.active, s.Keyed env

variable {rotation key cc : UInt32} {config : Config} {hash : Hash} {first : Bool}

theorem buildSession_keyed {set : ValidatorSet}
    (ok : t.buildSession env config set shard cc key rotation = .ok s) :
    s.Keyed env ∧ s.shard = shard ∧ s.catchainSeqno = cc := by
  grind [buildSession, sessionID, Session.Keyed]

theorem activeCore_keyed (keyed : Keyed env previous)
    (ok : t.activeCore env previous hash config shard cc key rotation = .ok s) :
    s.Keyed env ∧ s.shard = shard ∧ s.catchainSeqno = cc := by
  unfold activeCore at ok
  split at ok
  next reused found =>
    cases ok
    obtain ⟨p, hp, mem, same⟩ : ∃ p, previous = some p ∧ reused ∈ p.active ∧
        (reused.shard = shard ∧ reused.catchainSeqno = cc) := by
      cases previous with
      | none => cases found
      | some p => grind [reusable]
    exact ⟨keyed p hp reused mem, same⟩
  · exact buildSession_keyed ok

section

variable (separates : env.Separates)
include separates

theorem buildActiveSessions_built (keyed : Keyed env previous)
    (ok : t.buildActiveSessions env previous st hash config rotation = .ok active) :
    (∀ s ∈ active, s.Built env st 0) ∧ (ids active).Nodup := by
  obtain ⟨targets, found, ok⟩ := bind_eq_ok.mp ok
  obtain ⟨ss, loop, done⟩ := bind_eq_ok.mp ok
  cases done
  refine sessions_built separates (State.currentTargets_nodup (orFail_eq_ok.mp found))
    (fun {target s} ok => ?_) loop
  grind [buildActiveSession, bind_eq_ok, pure_eq_ok, → activeCore_keyed, orFail_eq_ok,
    Session.Built, Session.Keyed]

theorem buildFutureSessions_built
    (ok : t.buildFutureSessions env st config asOf rotation = .ok future) :
    (∀ s ∈ future, s.Built env st 1) ∧ (ids future).Nodup := by
  simp only [buildFutureSessions, bind_eq_ok] at ok
  obtain ⟨shards, found, _, -, _, -, ss, loop, done⟩ := ok
  cases done
  have distinct : (shards.map fun shard => shard).Nodup := by
    rw [map_id']
    exact State.futureShards_nodup (orFail_eq_ok.mp found)
  refine sessions_built separates distinct (fun {shard s} ok => ?_) loop
  grind [buildFutureSession, bind_eq_ok, pure_eq_ok, → buildSession_keyed, orFail_eq_ok,
    Session.Built, Session.Keyed]

omit separates in
theorem catchUp_keeps {active' : List Session} (ok : catchUp previous active = .ok active') :
    ∃ f, Keeps f ∧ active' = active.map f := by
  cases previous with
  | none =>
    cases ok
    exact ⟨_, keeps_id, (map_id' _).symm⟩
  | some p =>
    obtain ⟨-, -, done⟩ := bind_eq_ok.mp ok
    cases done
    refine ⟨_, fun s => ?_, rfl⟩
    split <;> exact ⟨rfl, rfl, rfl⟩

omit separates in
theorem reconcileFutureSessions_mem {lib : ShardLib} {desired : List Session}
    (ok : reconcileFutureSessions lib previous active desired = .ok future)
    (mem : s ∈ future) : s ∈ desired ∨ s.id ∉ ids active := by
  cases previous with
  | none =>
    cases ok
    exact .inl mem
  | some p =>
    simp only [reconcileFutureSessions, bind_eq_ok] at ok
    obtain ⟨-, -, -, -, done⟩ := ok
    cases done
    have mem := (perm_insertionSort ..).mem_iff.mp mem
    simp only [mem_append, mem_filter, Bool.and_eq_true, Option.isNone_iff_eq_none,
      sessionByID_eq_none] at mem
    exact mem.imp (·.1) (·.2.1.1)

/-- Sessions that may be reconciled with the snapshot before; at a fresh start nothing else is
checked. -/
structure Fit (env : Env) (first : Bool) (active future : List Session) : Prop where
  keyed : ∀ s ∈ active, s.Keyed env
  apart : (ids active).Disjoint (ids future)
  distinct : first = true → (ids active).Nodup ∧ (ids future).Nodup

theorem buildSessions_fit (keyed : Keyed env previous)
    (ok : t.buildSessions env previous st config asOf rotation first = .ok (active, future)) :
    Fit env first active future := by
  obtain ⟨built, found, ⟨f, keeps, rfl⟩, tentative⟩ : ∃ built, t.buildActiveSessions env previous st
      (env.configHash st.configRoot) config rotation = .ok built ∧
      (∃ f, Keeps f ∧ active = built.map f) ∧
      (future = [] ∨ ∃ desired, t.buildFutureSessions env st config asOf rotation = .ok desired ∧
        reconcileFutureSessions env.toShardLib (if first then none else previous) built desired =
          .ok future) := by
    obtain ⟨built, found, rest⟩ := bind_eq_ok.mp ok
    have unchanged : ∃ f, Keeps f ∧ built = built.map f :=
      ⟨_, keeps_id, (map_id' _).symm⟩
    refine ⟨built, found, ?_⟩
    cases first <;> cases rotated : st.rotatedAllShards <;>
      simp only [rotated, bind_eq_ok, pure_eq_ok, Except.ok.injEq, Prod.mk.injEq, if_true, if_false,
        Bool.false_eq_true] at rest
    · obtain ⟨desired, tentative, _, reconciled, _, rfl, rfl, rfl⟩ := rest
      exact ⟨unchanged, .inr ⟨desired, tentative, reconciled⟩⟩
    · obtain ⟨_, rfl, _, rfl, rfl, rfl⟩ := rest
      exact ⟨unchanged, .inl rfl⟩
    · obtain ⟨desired, tentative, _, reconciled, _, kept, rfl, rfl⟩ := rest
      exact ⟨catchUp_keeps kept, .inr ⟨desired, tentative, reconciled⟩⟩
    · obtain ⟨_, rfl, _, kept, rfl, rfl⟩ := rest
      exact ⟨catchUp_keeps kept, .inl rfl⟩
  obtain ⟨fresh, distinct⟩ := buildActiveSessions_built separates keyed found
  refine ⟨keeps.keyed fun s mem => (fresh s mem).1, ?_, ?_⟩ <;> rw [keeps.ids]
  · rcases tentative with rfl | ⟨desired, found, reconciled⟩
    · exact disjoint_nil_right _
    · intro id mem mem'
      have apart : (ids built).Disjoint (ids desired) :=
        Session.Built.apart separates fresh (buildFutureSessions_built separates found).1
      obtain ⟨s, hs, rfl⟩ := List.mem_map.mp mem'
      rcases reconcileFutureSessions_mem reconciled hs with hs | out
      · exact apart mem (mem_map_of_mem hs)
      · exact out mem
  · intro isFirst
    refine ⟨distinct, ?_⟩
    rcases tentative with rfl | ⟨desired, found, reconciled⟩
    · exact nodup_nil
    · rw [if_pos isFirst] at reconciled
      cases reconciled
      exact (buildFutureSessions_built separates found).2

end

/-! ## Runs -/

theorem reconcileSnapshot_spec {next snapshot : Snapshot}
    (fit : Fit env first next.active next.future)
    (apart : ∀ p, previous = some p → (ids p.active).Disjoint (ids p.future))
    (ok : reconcileSnapshot previous next = .ok (xs, snapshot)) :
    (∃ f g, Keeps f ∧ Keeps g ∧
      snapshot = { next with active := next.active.map f, future := next.future.map g }) ∧
    ((previous = none → first = true) → xs.foldlM Lifecycle.step
      (previous.elim (phaseIn [] []) fun p => phaseIn (ids p.active) (ids p.future)) =
      some (phaseIn (ids next.active) (ids next.future))) := by
  cases previous with
  | none =>
    cases ok
    refine ⟨⟨_, _, keeps_id, keeps_id, by simp⟩, fun fresh => ?_⟩
    obtain ⟨d₁, d₂⟩ := fit.distinct (fresh rfl)
    have same : next.active.map (⟨.started, ·⟩) ++ next.future.map (⟨.prepared, ·⟩) =
        transitions { next with active := [], future := [] } next.active next.future := by
      simp [transitions, sessionByID]
    rw [same]
    exact transitions_fold (p := { next with active := [], future := [] })
      ⟨nodup_nil, nodup_nil, d₁, d₂⟩ (disjoint_nil_left _) fit.apart
  | some p =>
    simp only [reconcileSnapshot, indexSessions, bind_eq_ok, require_eq_ok, decide_eq_true_eq] at ok
    obtain ⟨-, d₁, -, d₂, -, d₃, -, d₄, -, -, done⟩ := ok
    cases done
    refine ⟨⟨_, _, ?_, ?_, rfl⟩, fun _ => transitions_fold ⟨d₁, d₂, d₃, d₄⟩ (apart p rfl) fit.apart⟩
    · grind [Keeps, reconcileActive, preserveActiveSession, preserveFutureSession]
    · grind [Keeps, reconcileFuture, preserveFutureSession]

/-- Following the transitions up to a snapshot leads to `l`. -/
structure Follows (env : Env) (start : UInt32) (previous : Option Snapshot) (l : Lifecycle) :
    Prop where
  keyed : Keyed env previous
  apart : ∀ p, previous = some p → (ids p.active).Disjoint (ids p.future)
  enabled : ∀ p, previous = some p → p.lifecycleEnabled = decide (start ≤ p.masterchainBlock.seqno)
  shown : l = (previous.filter (·.lifecycleEnabled)).elim (phaseIn [] [])
    fun p => phaseIn (ids p.active) (ids p.future)

theorem Follows.reconcile {start : UInt32} {next snapshot : Snapshot}
    (h : Follows env start previous l)
    (ok : reconcileSnapshot (if first then none else previous) next = .ok (xs, snapshot))
    (fit : Fit env first next.active next.future)
    (later : ∀ p, previous = some p → p.masterchainBlock.seqno < next.masterchainBlock.seqno)
    (enabled : next.lifecycleEnabled = decide (start ≤ next.masterchainBlock.seqno))
    (isFirst : first =
      (next.lifecycleEnabled && previous.all fun p => decide (p.masterchainBlock.seqno < start))) :
    ∃ l', (if next.lifecycleEnabled then xs else []).foldlM Lifecycle.step l = some l' ∧
      Follows env start (some snapshot) l' := by
  -- The lifecycle goes on from the snapshots it was enabled in.
  have gate : next.lifecycleEnabled = true →
      (if first then none else previous) = previous.filter (·.lifecycleEnabled) := by
    cases previous <;> grind [h.enabled]
  have closed : next.lifecycleEnabled = false → previous.filter (·.lifecycleEnabled) = none := by
    cases previous <;> grind [h.enabled]
  obtain ⟨⟨f, g, kf, kg, rfl⟩, folded⟩ := reconcileSnapshot_spec fit
    (fun p hp => h.apart p (by grind)) ok
  refine ⟨if next.lifecycleEnabled then phaseIn (ids next.active) (ids next.future) else l, ?_, ?_⟩
  · split
    next on =>
      rw [h.shown, ← gate on]
      exact folded (by grind)
    · rfl
  · refine ⟨?_, ?_, ?_, ?_⟩
    · rintro p ⟨⟩
      exact kf.keyed fit.keyed
    · rintro p ⟨⟩
      rw [kf.ids, kg.ids]
      exact fit.apart
    · rintro p ⟨⟩
      exact enabled
    · split
      next on =>
        simp [Option.filter_some, on, kf.ids, kg.ids]
      next off =>
        simp [Option.filter_some, h.shown, closed (by simpa using off), off]

section

variable (separates : env.Separates) {l : Lifecycle} {input : ApplyInput}

include separates

theorem projectState_follows {result : ApplyResult}
    (h : Follows env t.startGroupsFromSeqno previous l)
    (later : ∀ p, previous = some p → p.masterchainBlock.seqno < input.block.seqno)
    (ok : t.projectState env previous input = .ok result) :
    ∃ l', result.transitions.foldlM Lifecycle.step l = some l' ∧
      Follows env t.startGroupsFromSeqno (some result.snapshot) l' := by
  simp only [projectState, bind_eq_ok] at ok
  obtain ⟨st, parsed, -, -, config, -, ok⟩ := ok
  have block : st.block = input.block := by
    grind [orFail_eq_ok, parseState, bind_eq_ok, pure_eq_ok]
  rw [← block] at later
  split at ok
  · obtain ⟨⟨active, future⟩, built, ok⟩ := bind_eq_ok.mp ok
    obtain ⟨⟨xs, snapshot⟩, reconciled, done⟩ := bind_eq_ok.mp ok
    cases done
    exact h.reconcile reconciled (buildSessions_fit separates h.keyed built) later rfl rfl
  · obtain ⟨⟨active, future⟩, none, ok⟩ := bind_eq_ok.mp ok
    obtain ⟨⟨xs, snapshot⟩, reconciled, done⟩ := bind_eq_ok.mp ok
    cases none
    cases done
    exact h.reconcile reconciled
      ⟨by simp, disjoint_nil_left _, fun _ => ⟨nodup_nil, nodup_nil⟩⟩ later rfl rfl

theorem apply_follows {t' : Tracker}
    (h : Follows env t.startGroupsFromSeqno t.snapshot l) (ok : t.apply env input = .ok (t', xs)) :
    ∃ l', xs.foldlM Lifecycle.step l = some l' ∧
      Follows env t'.startGroupsFromSeqno t'.snapshot l' := by
  obtain ⟨result, projected, done⟩ := bind_eq_ok.mp ok
  cases done
  obtain ⟨-, projected⟩ := guard_eq_ok.mp projected
  split at projected
  next none =>
    rw [none] at h
    exact projectState_follows separates h (by simp) projected
  next p some =>
    rw [some] at h
    obtain ⟨stale, projected⟩ := guard_eq_ok.mp projected
    split at projected
    · split at projected
      · cases projected
        exact ⟨l, rfl, h⟩
      · cases projected
    next other =>
      refine projectState_follows separates h ?_ projected
      rintro q ⟨⟩
      exact UInt32.lt_of_le_of_ne (UInt32.not_lt.mp stale) (Ne.symm other)

end

end Tracker

/-- Whoever follows the transitions of a run has the sessions of the last snapshot. -/
theorem transitions_reproduce_snapshots {env : Env} (separates : env.Separates)
    {maximalVerticalSeqno startGroupsFromSeqno : UInt32} {rules : List UnsafeRotationRule}
    {t₀ t : Tracker} {inputs : List ApplyInput} {out : List Transition}
    (fresh : newTracker maximalVerticalSeqno startGroupsFromSeqno rules = .ok t₀)
    (run : t₀.applyAll env inputs = .ok (t, out)) :
    ∃ l, out.foldlM Lifecycle.step (fun _ => .absent) = some l ∧
      ∀ p, t.snapshot = some p → p.lifecycleEnabled = true →
        { id | l id = .running } = { id | id ∈ p.active.map Session.id } ∧
        { id | l id = .prepared } = { id | id ∈ p.future.map Session.id } ∧
        (p.active.map Session.id).Disjoint (p.future.map Session.id) := by
  simp only [newTracker, guard_eq_ok] at fresh
  obtain ⟨-, -, same⟩ := fresh
  cases same
  obtain ⟨l, folded, h⟩ : ∃ l, out.foldlM Lifecycle.step (fun _ => .absent) = some l ∧
      Tracker.Follows env t.startGroupsFromSeqno t.snapshot l := by
    refine foldlM_keeps (P := fun r : Tracker × List Transition => ∃ l,
      r.2.foldlM Lifecycle.step (fun _ => .absent) = some l ∧
        Tracker.Follows env r.1.startGroupsFromSeqno r.1.snapshot l) ?_
      ⟨_, rfl, by simp [Tracker.Keyed], by simp, by simp, rfl⟩ run
    rintro r input r' - ⟨l, folded, h⟩ ok
    obtain ⟨⟨t', xs⟩, applied, done⟩ := bind_eq_ok.mp ok
    cases done
    obtain ⟨l', more, h'⟩ := Tracker.apply_follows separates h applied
    refine ⟨l', ?_, h'⟩
    rw [foldlM_append, folded]
    exact more
  refine ⟨l, folded, fun p hp enabled => ?_⟩
  rw [hp] at h
  have shown : l = phaseIn (ids p.active) (ids p.future) := by
    simpa [Option.filter_some, enabled] using h.shown
  have apart := h.apart p rfl
  subst shown
  refine ⟨?_, ?_, apart⟩ <;> ext id <;> simp only [Set.mem_ofPred_eq, phaseIn]
  · grind [ids]
  · have := @apart id
    grind [ids]

def BinTree.leaves {α : Type} : BinTree α → List Bool → List (List Bool × α)
  | .leaf value, path => [(path, value)]
  | .fork left right, path => left.leaves (path ++ [false]) ++ right.leaves (path ++ [true])

/-- An id that shows the shard, the catchain seqno and the emergency rotation. -/
def soloEnv : Env where
  getChild := getChild
  getParent := getParent
  isAncestor := fun ancestor shard => ancestor == shard || ancestor == root
  walk := fun tree => tree.leaves []
  rng := ⟨Unit, fun _ _ _ => (), fun _ _ => (0, ())⟩
  publicKeyHash := fun key => key
  groupHash := fun g => .ofNat 256 (g.workchain.toNat * 2 ^ 224 + g.shard.toNat * 2 ^ 160 +
    g.catchainSeqno.toNat * 2 ^ 128 + g.configHash.toNat / 2 ^ 128)
  setHash := fun _ _ => 0
  configHash := fun _ => 0

/-- A state with one validator; from the first block on the basechain has one shard. -/
def soloState (seqno mcSeqno shardSeqno : UInt32) (rotated : Bool) (fsm : ShardFSMKind) :
    ApplyInput where
  block := ⟨masterchainWorkchain, root, seqno, 0, 0⟩
  root :=
    { workchainID := masterchainWorkchain, prefixBits := 0, shardPrefix := 0, seqno
      genUTime := 0, catchainSeqno := mcSeqno, nextCCUpdated := rotated
      afterKeyBlock := seqno == 0, lastKeyBlock := if seqno = 0 then none else some 0
      shardHashes := if seqno = 0 then [] else
        [(0, .leaf ⟨seqno, 0, 0, false, false, 0, shardSeqno, ⟨fsm, 10, 10⟩⟩)]
      config := ⟨some (.v1 1 1 1 1), true, none,
        some ⟨0, 1, 1, some 1, [(0, ⟨1, 1, none⟩)]⟩, none, none, none⟩ }
  asOf := 0

def soloTracker : Tracker := ⟨0, 0, [⟨1, 3, 7⟩], none⟩

/-- The zero state, twice; a split that is due, so that both halves are prepared; a rotation
without the split; an emergency rotation. -/
def soloStates : List ApplyInput :=
  [soloState 0 0 0 true .none, soloState 0 0 0 true .none, soloState 1 0 1 false .split,
    soloState 2 1 2 true .none, soloState 3 1 2 true .none]

def soloRun : Tracker × List Transition :=
  resultD (soloTracker.applyAll soloEnv soloStates) (soloTracker, [])

theorem soloEnv_separates : soloEnv.Separates := by
  intro g g' same
  have same := congrArg BitVec.toNat same
  simp only [soloEnv, BitVec.toNat_ofNat] at same
  have := g.catchainSeqno.toNat_lt
  have := g'.catchainSeqno.toNat_lt
  exact ⟨BitVec.eq_of_toNat_eq (by omega), BitVec.eq_of_toNat_eq (by omega),
    UInt32.toNat_inj.mp (by omega)⟩

/-- Sessions start, are prepared, promoted, discarded and stopped. -/
theorem transitions_reproduce_rotations :
    soloRun.2.map Transition.kind = [.started, .started, .prepared, .prepared, .prepared,
      .stopped, .stopped, .discarded, .discarded, .promoted, .started,
      .stopped, .stopped, .started, .started] ∧
    ∃ l, soloRun.2.foldlM Lifecycle.step (fun _ => .absent) = some l ∧
      ∀ p, soloRun.1.snapshot = some p → p.lifecycleEnabled = true →
        { id | l id = .running } = { id | id ∈ p.active.map Session.id } ∧
        { id | l id = .prepared } = { id | id ∈ p.future.map Session.id } ∧
        (p.active.map Session.id).Disjoint (p.future.map Session.id) := by
  have run : soloTracker.applyAll soloEnv soloStates = .ok soloRun :=
    eq_ok_resultD (by decide +kernel)
  exact ⟨by decide +kernel, transitions_reproduce_snapshots soloEnv_separates
    (show newTracker 0 0 [⟨1, 3, 7⟩] = .ok soloTracker from rfl) run⟩

end Gton.Groups
