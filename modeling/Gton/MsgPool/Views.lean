import Gton.MsgPool.Index

/-!
# The views of a run

The abstract side is a ledger: for every block since the seed the set of messages queued after
it. A run serves the ledger at every position it retains.
-/

namespace Gton.MsgPool

open Gton.Shard Gton.Lib.Fallible
open List Function

variable {entries : List RunEntry} {s v top : UInt32} {m : InternalMessage} {e : RunEntry}
  {run : SourceRun} {p : InternalMessage → Prop} {added : List InternalMessage}

/-! ## Views of entries -/

def viewOf (entries : List RunEntry) (seqno : UInt32) : List InternalMessage :=
  (entries.filter (·.visibleAt seqno)).map (·.msg)

/-- What is queued at the head. -/
def liveOf (entries : List RunEntry) : List InternalMessage :=
  (entries.filter (·.live)).map (·.msg)

/-- Dequeue at `s` every queued message that satisfies `p`. -/
def kill (p : InternalMessage → Prop) [DecidablePred p] (s : UInt32) (entries : List RunEntry) :
    List RunEntry :=
  entries.map fun e => if e.removedAt = 0 ∧ p e.msg then { e with removedAt := s } else e

/-- No entry mentions a position past `top`. -/
def Bounded (top : UInt32) (entries : List RunEntry) : Prop :=
  ∀ e ∈ entries, e.msg.sourceSeqno ≤ top ∧ e.removedAt ≤ top

theorem mem_liveOf : m ∈ liveOf entries ↔ ∃ e ∈ entries, e.removedAt = 0 ∧ e.msg = m := by
  simp [liveOf, RunEntry.live, and_assoc]

theorem viewOf_eq_liveOf (bounded : Bounded top entries) (le : top ≤ v) :
    viewOf entries v = liveOf entries := by
  unfold viewOf liveOf
  congr 1
  apply filter_congr
  intro e mem
  obtain ⟨queued, removed⟩ := bounded e mem
  simp only [RunEntry.visibleAt, RunEntry.live, UInt32.le_trans queued le, decide_true,
    Bool.true_and]
  have : ¬ e.removedAt > v := UInt32.not_lt.mpr (UInt32.le_trans removed le)
  simp [this]

theorem viewOf_perm {a b : List RunEntry} (h : a.Perm b) (v : UInt32) :
    (viewOf a v).Perm (viewOf b v) := (h.filter _).map _

theorem viewOf_append (a b : List RunEntry) (v : UInt32) :
    viewOf (a ++ b) v = viewOf a v ++ viewOf b v := by
  simp [viewOf]

section Kill

variable {p q : InternalMessage → Prop} [DecidablePred p] [DecidablePred q]

theorem kill_kill (pos : s ≠ 0) :
    kill q s (kill p s entries) = kill (fun m => p m ∨ q m) s entries := by
  simp only [kill, map_map]
  apply map_congr_left
  intro e _
  by_cases live : e.removedAt = 0 <;> by_cases hp : p e.msg <;> simp [live, hp, pos]

theorem viewOf_kill (lt : v < s) : viewOf (kill p s entries) v = viewOf entries v := by
  induction entries with
  | nil => rfl
  | cons e es ih =>
    have same : (if e.removedAt = 0 ∧ p e.msg then { e with removedAt := s } else e).visibleAt v
        = e.visibleAt v := by
      split
      next here =>
        simp [RunEntry.visibleAt, here.1, lt]
      · rfl
    simp only [viewOf, kill, map_cons, filter_cons, same] at ih ⊢
    split
    · simp only [map_cons, ih]
      split <;> rfl
    · exact ih

theorem liveOf_kill (pos : s ≠ 0) :
    liveOf (kill p s entries) = (liveOf entries).filter fun m => !decide (p m) := by
  induction entries with
  | nil => rfl
  | cons e es ih =>
    simp only [liveOf, kill, map_cons, filter_cons, RunEntry.live] at ih ⊢
    by_cases live : e.removedAt = 0 <;> by_cases hp : p e.msg <;> simp [live, hp, pos, ih]

theorem Bounded.kill (bounded : Bounded top entries) (le : top ≤ s) :
    Bounded s (kill p s entries) := by
  intro e mem
  obtain ⟨f, hf, rfl⟩ := mem_map.mp mem
  obtain ⟨queued, removed⟩ := bounded f hf
  split
  · exact ⟨UInt32.le_trans queued le, UInt32.le_refl _⟩
  · exact ⟨UInt32.le_trans queued le, UInt32.le_trans removed le⟩

end Kill

/-! ## Removals -/

/-- Both indexes are right. -/
structure Indexed (run : SourceRun) : Prop where
  keys : Indexes (·.key) run.byKey run.entries
  envelopes : Indexes (·.envHash) run.byEnv run.entries

/-- The tombstones. -/
def tombstones (entries : List RunEntry) : Nat := entries.countP fun e => !e.live

/-- The fields a delta leaves alone. -/
structure SameHistory (run run' : SourceRun) : Prop where
  top : run'.top = run.top
  refs : run'.refs = run.refs
  seedSeqno : run'.seedSeqno = run.seedSeqno

theorem SameHistory.refl (run : SourceRun) : SameHistory run run := ⟨rfl, rfl, rfl⟩

theorem SameHistory.trans {a b c : SourceRun} (h : SameHistory a b) (h' : SameHistory b c) :
    SameHistory a c :=
  ⟨h'.top.trans h.top, h'.refs.trans h.refs, h'.seedSeqno.trans h.seedSeqno⟩

/-- Dequeuing the entry an index found dequeues all that have its name: it is the only one. -/
theorem set_eq_kill {K : Type} [DecidableEq K] {proj : InternalMessage → K}
    {index : K → Option Nat} (h : Indexes proj index entries) {i : Nat}
    (at_ : entries[i]? = some e) (live : e.removedAt = 0) :
    entries.set i { e with removedAt := s } = kill (fun m => proj m = proj e.msg) s entries := by
  apply ext_getElem?
  intro j
  rw [getElem?_set, kill, getElem?_map]
  split
  next eq =>
    subst eq
    rw [if_pos (List.getElem?_eq_some_iff.mp at_).1, at_]
    simp [live]
  next ne =>
    cases found : entries[j]? with
    | none => rfl
    | some f =>
      simp only [Option.map_some, Option.some.injEq]
      rw [if_neg]
      rintro ⟨livef, same⟩
      exact ne (h.unique at_ found live livef same.symm)

theorem tombstones_set {i : Nat} (at_ : entries[i]? = some e)
    (live : e.removedAt = 0) (pos : s ≠ 0) :
    tombstones (entries.set i { e with removedAt := s }) = tombstones entries + 1 := by
  obtain ⟨lt, rfl⟩ := List.getElem?_eq_some_iff.mp at_
  unfold tombstones
  rw [countP_set lt]
  simp [RunEntry.live, live, pos]

/-- What removing everything in `p` leaves. -/
structure Removed (p : InternalMessage → Prop) [DecidablePred p] (s : UInt32)
    (run run' : SourceRun) : Prop where
  indexed : Indexed run'
  entries : run'.entries = kill p s run.entries
  size : run'.queueSize = run.queueSize
  count : run'.removedCount = tombstones run'.entries
  history : SameHistory run run'

section Removals

variable {K : Type} [DecidableEq K] (proj : InternalMessage → K)
  {index : SourceRun → K → Option Nat}
  (sound : ∀ run, Indexed run → Indexes proj (index run) run.entries)
include sound

theorem removeFromRun_spec (indexed : Indexed run)
    (count : run.removedCount = tombstones run.entries) (pos : s ≠ 0) (k : K) :
    Decides (∃ m ∈ liveOf run.entries, proj m = k) (Removed (fun m => proj m = k) s run)
      (run.removeFromRun (index run k) s) := by
  have indexes := sound run indexed
  cases found : index run k with
  | none =>
    rintro ⟨m, mem, same⟩
    obtain ⟨e, he, live, rfl⟩ := mem_liveOf.mp mem
    exact indexes.eq_none.mp found e he live same
  | some i =>
    obtain ⟨e, at_, live, rfl⟩ := (indexes k i).mp found
    simp only [SourceRun.removeFromRun, at_]
    refine ⟨⟨e.msg, mem_liveOf.mpr ⟨e, mem_of_getElem? at_, live, rfl⟩, rfl⟩, ?_⟩
    exact
      { indexed := ⟨indexed.keys.remove at_ live pos, indexed.envelopes.remove at_ live pos⟩
        entries := set_eq_kill indexes at_ live
        size := rfl
        count := by
          rw [tombstones_set at_ live pos, count]
          rfl
        history := ⟨rfl, rfl, rfl⟩ }

omit sound in
theorem mem_liveOf_kill [DecidablePred p] (pos : s ≠ 0) :
    m ∈ liveOf (kill p s entries) ↔ m ∈ liveOf entries ∧ ¬ p m := by
  rw [liveOf_kill pos]
  simp

/-- The loop succeeds when the names are distinct and all queued, and then has dequeued them. -/
theorem removeEach_spec (pos : s ≠ 0) (ks : List K) : ∀ {run : SourceRun}, Indexed run →
    run.removedCount = tombstones run.entries →
    Decides (ks.Nodup ∧ ∀ k ∈ ks, ∃ m ∈ liveOf run.entries, proj m = k)
      (Removed (fun m => proj m ∈ ks) s run) (SourceRun.removeEach index s ks run) := by
  induction ks with
  | nil =>
    intro run indexed count
    refine ⟨⟨.nil, by simp⟩, indexed, ?_, rfl, count, .refl run⟩
    simp [kill]
  | cons k ks ih =>
    intro run indexed count
    unfold SourceRun.removeEach
    apply Decides.congr (and_iff_right_of_imp fun ok => ok.2 k (.head _))
    apply (removeFromRun_spec proj sound indexed count pos k).bind
    intro mid here removed
    -- what is left to find is queued and has another name
    have after (k' : K) : (∃ m ∈ liveOf mid.entries, proj m = k') ↔
        k' ≠ k ∧ ∃ m ∈ liveOf run.entries, proj m = k' := by
      rw [removed.entries]
      constructor
      · rintro ⟨m, mem, rfl⟩
        obtain ⟨queued, other⟩ := (mem_liveOf_kill pos).mp mem
        exact ⟨other, m, queued, rfl⟩
      · rintro ⟨other, m, queued, rfl⟩
        exact ⟨m, (mem_liveOf_kill pos).mpr ⟨queued, other⟩, rfl⟩
    have all : (ks.Nodup ∧ ∀ k' ∈ ks, ∃ m ∈ liveOf mid.entries, proj m = k') ↔
        (k :: ks).Nodup ∧ ∀ k' ∈ k :: ks, ∃ m ∈ liveOf run.entries, proj m = k' := by
      simp only [after, nodup_cons, forall_mem_cons]
      constructor
      · rintro ⟨nodup, found⟩
        exact ⟨⟨fun mem => (found k mem).1 rfl, nodup⟩, here, fun k' mem => (found k' mem).2⟩
      · rintro ⟨⟨new, nodup⟩, -, found⟩
        exact ⟨nodup, fun k' mem => ⟨fun eq => new (eq ▸ mem), found k' mem⟩⟩
    refine ((ih removed.indexed removed.count).imp fun run' removed' => ?_).congr all
    refine ⟨removed'.indexed, ?_, removed'.size.trans removed.size, removed'.count,
      removed.history.trans removed'.history⟩
    rw [removed'.entries, removed.entries, kill_kill pos]
    simp only [mem_cons]

end Removals

/-! ## Additions -/

/-- Not decreasing in the import order; tombstones of one order may stand together. -/
abbrev Sorted (entries : List RunEntry) : Prop := entries.Pairwise (·.msg.order ≤ ·.msg.order)

/-- A message that can join: no queued message has its key, envelope or order. -/
def Joins (a : InternalMessage) (queued : List InternalMessage) : Prop :=
  ∀ m ∈ queued, m.key ≠ a.key ∧ m.envHash ≠ a.envHash ∧ m.order ≠ a.order

theorem sorted_kill [DecidablePred p] (h : Sorted entries) : Sorted (kill p s entries) := by
  apply pairwise_map.mpr
  apply h.imp
  intro a b le
  split <;> split <;> exact le

/-- The merge fails exactly on a queued entry of the same order; otherwise it keeps everything,
in order. -/
def MergeSpec (entries : List RunEntry) (added : List InternalMessage)
    (result : Except Disorder (List RunEntry)) : Prop :=
  (∃ merged, result = .ok merged ∧ merged.Perm (entries ++ added.map (⟨·, 0⟩)) ∧ Sorted merged ∧
    ∀ a ∈ added, ∀ m ∈ liveOf entries, m.order ≠ a.order) ∨
  (result = .error .duplicateHash ∧ ∃ a ∈ added, ∃ m ∈ liveOf entries, m.order = a.order)

section Merge

variable {e : RunEntry} {es : List RunEntry} {a : InternalMessage} {as : List InternalMessage}
  {result : Except Disorder (List RunEntry)}

theorem liveOf_cons :
    liveOf (e :: es) = if e.removedAt = 0 then e.msg :: liveOf es else liveOf es := by
  unfold liveOf
  by_cases live : e.removedAt = 0 <;> simp [RunEntry.live, live]

/-- The entry goes first: it is below every addition, or gone. -/
theorem MergeSpec.entry (h : MergeSpec es (a :: as) result) (sorted : Sorted (e :: es))
    (ordered : Ordered (a :: as)) (le : e.msg.order ≤ a.order)
    (lt : e.removedAt = 0 → e.msg.order < a.order) :
    MergeSpec (e :: es) (a :: as) (do return e :: (← result)) := by
  obtain ⟨below, -⟩ := pairwise_cons.mp ordered
  have above (b : InternalMessage) (mem : b ∈ a :: as) : a.order ≤ b.order := by
    rcases mem_cons.mp mem with rfl | mem
    · exact le_refl _
    · exact le_of_lt (below b mem)
  rcases h with ⟨merged, rfl, perm, sorted', apart⟩ | ⟨rfl, b, mem, m, queued, same⟩
  · left
    refine ⟨e :: merged, rfl, perm.cons e, pairwise_cons.mpr ⟨?_, sorted'⟩, ?_⟩
    · intro f mem
      rcases mem_append.mp (perm.subset mem) with old | new
      · exact (pairwise_cons.mp sorted).1 f old
      · obtain ⟨b, hb, rfl⟩ := mem_map.mp new
        exact le_trans le (above b hb)
    · intro b mem m queued
      rw [liveOf_cons] at queued
      split at queued
      next live =>
        rcases mem_cons.mp queued with rfl | queued
        · exact ne_of_lt (lt_of_lt_of_le (lt live) (above b mem))
        · exact apart b mem m queued
      · exact apart b mem m queued
  · right
    refine ⟨rfl, b, mem, m, ?_, same⟩
    rw [liveOf_cons]
    split
    · exact .tail _ queued
    · exact queued

/-- The addition goes first: it is below every entry. -/
theorem MergeSpec.addition (h : MergeSpec (e :: es) as result) (sorted : Sorted (e :: es))
    (ordered : Ordered (a :: as)) (lt : a.order < e.msg.order) :
    MergeSpec (e :: es) (a :: as) (do return ⟨a, 0⟩ :: (← result)) := by
  have above (f : RunEntry) (mem : f ∈ e :: es) : a.order < f.msg.order := by
    rcases mem_cons.mp mem with rfl | mem
    · exact lt
    · exact lt_of_lt_of_le lt ((pairwise_cons.mp sorted).1 f mem)
  rcases h with ⟨merged, rfl, perm, sorted', apart⟩ | ⟨rfl, b, mem, rest⟩
  · left
    refine ⟨⟨a, 0⟩ :: merged, rfl, ?_, pairwise_cons.mpr ⟨?_, sorted'⟩, ?_⟩
    · exact (perm.cons _).trans perm_middle.symm
    · intro f mem
      rcases mem_append.mp (perm.subset mem) with old | new
      · exact le_of_lt (above f old)
      · obtain ⟨b, hb, rfl⟩ := mem_map.mp new
        exact le_of_lt ((pairwise_cons.mp ordered).1 b hb)
    · intro b mem m queued
      rcases mem_cons.mp mem with rfl | mem
      · obtain ⟨f, hf, -, rfl⟩ := mem_liveOf.mp queued
        exact (ne_of_lt (above f hf)).symm
      · exact apart b mem m queued
  · exact .inr ⟨rfl, b, .tail _ mem, rest⟩

end Merge

theorem mergeEntries_spec (sorted : Sorted entries)
    (ordered : Ordered added) : MergeSpec entries added (SourceRun.mergeEntries entries added) := by
  fun_induction SourceRun.mergeEntries entries added with
  | case1 added =>
    left
    refine ⟨_, rfl, by simp, ?_, by simp [liveOf]⟩
    exact pairwise_map.mpr (ordered.imp le_of_lt)
  | case2 entries =>
    left
    exact ⟨_, rfl, by simp, sorted, by simp⟩
  | case3 e es a as same gone =>
    right
    refine ⟨rfl, a, by simp, e.msg, mem_liveOf.mpr ⟨e, by simp, gone, rfl⟩, ?_⟩
    exact compareLtHash_eq_iff.mp same
  | case4 e es a as same gone ih =>
    exact (ih (pairwise_cons.mp sorted).2 ordered).entry sorted ordered
      (le_of_eq (compareLtHash_eq_iff.mp same)) fun live => absurd live gone
  | case5 e es a as lt ih =>
    have lt := compareLtHash_lt.mp lt
    exact (ih (pairwise_cons.mp sorted).2 ordered).entry sorted ordered (le_of_lt lt)
      fun _ => lt
  | case6 e es a as gt ih =>
    exact (ih sorted (pairwise_cons.mp ordered).2).addition sorted ordered
      (compareLtHash_gt.mp gt)

/-- What adding a batch leaves. -/
structure Added (added : List InternalMessage) (run run' : SourceRun) : Prop where
  indexed : Indexed run'
  perm : run'.entries.Perm (run.entries ++ added.map (⟨·, 0⟩))
  sorted : Sorted run'.entries
  size : run'.queueSize = run.queueSize
  count : run'.removedCount = run.removedCount
  history : SameHistory run run'

theorem liveOf_append (a b : List RunEntry) : liveOf (a ++ b) = liveOf a ++ liveOf b := by
  simp [liveOf]

theorem liveOf_fresh (added : List InternalMessage) : liveOf (added.map (⟨·, 0⟩)) = added := by
  induction added with
  | nil => rfl
  | cons m ms ih =>
    rw [map_cons, liveOf_cons, if_pos rfl, ih]

theorem liveOf_perm {a b : List RunEntry} (h : a.Perm b) : (liveOf a).Perm (liveOf b) :=
  (h.filter _).map _

theorem checkNew_spec (indexed : Indexed run) (added : List InternalMessage) :
    SourceRun.checkNew run added = .ok () ↔ ∀ a ∈ added, ∀ m ∈ liveOf run.entries,
      m.key ≠ a.key ∧ m.envHash ≠ a.envHash := by
  have absent (a : InternalMessage) : (∀ m ∈ liveOf run.entries, m.key ≠ a.key ∧
      m.envHash ≠ a.envHash) ↔ run.byKey a.key = none ∧ run.byEnv a.envHash = none := by
    rw [indexed.keys.eq_none, indexed.envelopes.eq_none]
    constructor
    · intro apart
      exact ⟨fun e mem live => (apart _ (mem_liveOf.mpr ⟨e, mem, live, rfl⟩)).1,
        fun e mem live => (apart _ (mem_liveOf.mpr ⟨e, mem, live, rfl⟩)).2⟩
    · rintro ⟨keys, envelopes⟩ m mem
      obtain ⟨e, he, live, rfl⟩ := mem_liveOf.mp mem
      exact ⟨keys e he live, envelopes e he live⟩
  simp only [absent]
  induction added with
  | nil => simp [SourceRun.checkNew]
  | cons a as ih =>
    unfold SourceRun.checkNew
    simp only [guard_eq_ok, ih, forall_mem_cons, Option.not_isSome_iff_eq_none, and_assoc]

theorem nodup_names {K : Type} {proj : InternalMessage → K}
    {merged : List RunEntry} (perm : merged.Perm (entries ++ added.map (⟨·, 0⟩)))
    (queued : ((entries.filter (·.live)).map fun e => proj e.msg).Nodup)
    (batch : (added.map proj).Nodup) (apart : ∀ a ∈ added, ∀ m ∈ liveOf entries, proj m ≠ proj a) :
    ((merged.filter (·.live)).map fun e => proj e.msg).Nodup := by
  have names (l : List RunEntry) :
      (l.filter (·.live)).map (fun e => proj e.msg) = (liveOf l).map proj := by
    simp [liveOf]
  rw [names] at queued ⊢
  rw [((liveOf_perm perm).map proj).nodup_iff, liveOf_append, liveOf_fresh, map_append,
    nodup_append]
  refine ⟨queued, batch, ?_⟩
  intro x hx y hy
  obtain ⟨m, hm, rfl⟩ := mem_map.mp hx
  obtain ⟨a, ha, rfl⟩ := mem_map.mp hy
  exact apart a ha m hm

theorem foldl_push_spec (added : List InternalMessage) : ∀ {run : SourceRun}, Indexed run →
    (added.map (·.key)).Nodup → (added.map (·.envHash)).Nodup →
    (∀ a ∈ added, run.byKey a.key = none ∧ run.byEnv a.envHash = none) →
    Indexed (added.foldl SourceRun.push run) ∧
      (added.foldl SourceRun.push run).entries = run.entries ++ added.map (⟨·, 0⟩) ∧
      (added.foldl SourceRun.push run).queueSize = run.queueSize ∧
      (added.foldl SourceRun.push run).removedCount = run.removedCount ∧
      SameHistory run (added.foldl SourceRun.push run) := by
  induction added with
  | nil =>
    intro run indexed _ _ _
    exact ⟨indexed, by simp, rfl, rfl, .refl run⟩
  | cons a as ih =>
    intro run indexed keys envelopes new
    obtain ⟨newKey, newEnvelope⟩ := new a (by simp)
    obtain ⟨firstKey, keys⟩ := nodup_cons.mp keys
    obtain ⟨firstEnvelope, envelopes⟩ := nodup_cons.mp envelopes
    have rest (b : InternalMessage) (mem : b ∈ as) :
        (run.push a).byKey b.key = none ∧ (run.push a).byEnv b.envHash = none := by
      have key : b.key ≠ a.key := fun eq => firstKey (mem_map.mpr ⟨b, mem, eq⟩)
      have envelope : b.envHash ≠ a.envHash := fun eq =>
        firstEnvelope (mem_map.mpr ⟨b, mem, eq⟩)
      simp only [SourceRun.push, update_of_ne key, update_of_ne envelope]
      exact new b (.tail _ mem)
    have pushed : Indexed (run.push a) := ⟨indexed.keys.snoc_live (e := ⟨a, 0⟩) rfl newKey,
      indexed.envelopes.snoc_live (e := ⟨a, 0⟩) rfl newEnvelope⟩
    obtain ⟨indexed', entries, size, count, history⟩ := ih pushed keys envelopes rest
    refine ⟨indexed', ?_, size, count, ?_⟩
    · rw [foldl_cons, entries]
      simp [SourceRun.push]
    · exact SameHistory.trans (b := run.push a) ⟨rfl, rfl, rfl⟩ history

/-- Adding a batch succeeds when every message can join, and then has added them. -/
theorem addValidatedToRun_spec {owner : ShardIdent}
    (indexed : Indexed run) (sorted : Sorted run.entries) (batch : Batch owner added) :
    Decides (∀ a ∈ added, Joins a (liveOf run.entries)) (Added added run)
      (run.addValidatedToRun added) := by
  have joins : (∀ a ∈ added, Joins a (liveOf run.entries)) ↔
      (∀ a ∈ added, ∀ m ∈ liveOf run.entries, m.key ≠ a.key ∧ m.envHash ≠ a.envHash) ∧
        ∀ a ∈ added, ∀ m ∈ liveOf run.entries, m.order ≠ a.order := by
    simp only [Joins, ← and_assoc, forall_and]
  apply Decides.congr joins.symm
  apply (Decides.of_iff (checkNew_spec indexed added)).bind
  intro _ apart _
  split
  · unfold SourceRun.mergeRunAdditions
    rcases mergeEntries_spec sorted batch.ordered with ⟨merged, ok, perm, sorted', orders⟩ |
      ⟨error, a, mem, m, queued, same⟩
    · rw [ok]
      refine ⟨orders, ⟨?_, ?_⟩, perm, sorted', rfl, rfl, ⟨rfl, rfl, rfl⟩⟩
      · exact indexes_reindex (nodup_names perm indexed.keys.nodup batch.keys
          fun a mem m queued => (apart a mem m queued).1)
      · exact indexes_reindex (nodup_names perm indexed.envelopes.nodup batch.envelopes
          fun a mem m queued => (apart a mem m queued).2)
    · rw [error]
      exact fun orders => orders a mem m queued same
  next merges =>
    -- the last entry is below the first addition, so every entry is below every addition
    have below (e : RunEntry) (mem : e ∈ run.entries) (a : InternalMessage) (ha : a ∈ added) :
        e.msg.order < a.order := by
      obtain ⟨tail, htail⟩ : ∃ tail, run.entries.getLast? = some tail :=
        Option.ne_none_iff_exists'.mp (by simpa using ne_nil_of_mem mem)
      obtain ⟨first, rest, rfl⟩ := exists_cons_of_ne_nil (ne_nil_of_mem ha)
      have lt : tail.msg.order < first.order := by
        simpa [htail, compareLtHash_lt] using merges
      have up : e.msg.order ≤ tail.msg.order := by
        obtain ⟨init, split⟩ := getLast?_eq_some_iff.mp htail
        rw [split] at mem sorted
        rcases mem_append.mp mem with old | last
        · exact (pairwise_append.mp sorted).2.2 e old tail (by simp)
        · rw [mem_singleton.mp last]
      rcases mem_cons.mp ha with rfl | ha
      · exact lt_of_le_of_lt up lt
      · exact (lt_of_le_of_lt up lt).trans ((pairwise_cons.mp batch.ordered).1 a ha)
    have absent (a : InternalMessage) (mem : a ∈ added) :
        run.byKey a.key = none ∧ run.byEnv a.envHash = none :=
      ⟨indexed.keys.eq_none.mpr fun e he live =>
          (apart a mem _ (mem_liveOf.mpr ⟨e, he, live, rfl⟩)).1,
        indexed.envelopes.eq_none.mpr fun e he live =>
          (apart a mem _ (mem_liveOf.mpr ⟨e, he, live, rfl⟩)).2⟩
    obtain ⟨indexed', entries, size, count, history⟩ :=
      foldl_push_spec added indexed batch.keys batch.envelopes absent
    refine ⟨?_, indexed', by rw [entries], ?_, size, count, history⟩
    · intro a mem m queued
      obtain ⟨e, he, -, rfl⟩ := mem_liveOf.mp queued
      exact ne_of_lt (below e he a mem)
    · rw [entries, Sorted, pairwise_append]
      refine ⟨sorted, pairwise_map.mpr (batch.ordered.imp le_of_lt), ?_⟩
      intro e he f hf
      obtain ⟨a, ha, rfl⟩ := mem_map.mp hf
      exact le_of_lt (below e he a ha)

end Gton.MsgPool
