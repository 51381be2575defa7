import Gton.MsgPool.Views
import Mathlib.Data.Set.Basic
import Mathlib.Data.Option.Basic

/-!
# Runs serve the ledger

The abstract side is a ledger: for every block since the seed the set of messages queued after
it. A block whose change is not legal ends the ledger. A run serves the ledger at every position
it retains, and is tracked exactly as long as the ledger lasts.
-/

namespace Gton.MsgPool

open Gton.Shard Gton.Lib.Fallible
open List Function

/-! ## The ledger -/

/-- The delta dequeues the message. -/
def InternalsDelta.removes (d : InternalsDelta) (m : InternalMessage) : Prop :=
  m.key ∈ d.removedKeys ∨ m.envHash ∈ d.removedEnvHashes

instance (d : InternalsDelta) : DecidablePred d.removes := fun _ =>
  inferInstanceAs (Decidable (_ ∨ _))

/-- The queue after a block: without what it dequeues, with what it queues. -/
def InternalsDelta.apply (d : InternalsDelta) (queue : Set InternalMessage) : Set InternalMessage :=
  {m | (m ∈ queue ∧ ¬ d.removes m) ∨ m ∈ d.added}

/-- What a block may do to a queue of that size. -/
structure Legal (owner source : ShardIdent) (ref : SourceRef) (queue : Set InternalMessage)
    (size : Int64) (d : InternalsDelta) : Prop where
  batch : Batch owner d.added
  sourced : Sourced source ref.seqno d.added
  distinctKeys : d.removedKeys.Nodup
  queuedKeys : ∀ k ∈ d.removedKeys, ∃ m ∈ queue, m.key = k
  distinctEnvelopes : d.removedEnvHashes.Nodup
  queuedEnvelopes : ∀ h ∈ d.removedEnvHashes, ∃ m ∈ queue, m.key ∉ d.removedKeys ∧ m.envHash = h
  joins : ∀ a ∈ d.added, ∀ m ∈ queue, ¬ d.removes m →
    m.key ≠ a.key ∧ m.envHash ≠ a.envHash ∧ m.order ≠ a.order
  nonnegative : 0 ≤ size + (d.addedTotal - d.removedTotal)
  expected : ∀ n ∈ d.expectedQueueSize, size + (d.addedTotal - d.removedTotal) = n.toInt64

/-- The queue after every block since the seed, the newest first, and its size as it is counted,
modulo 2^64. -/
structure Ledger where
  top : SourceRef
  queue : Set InternalMessage
  older : List (SourceRef × Set InternalMessage)
  size : Int64

def Ledger.history (l : Ledger) : List (SourceRef × Set InternalMessage) :=
  (l.top, l.queue) :: l.older

def Ledger.extend (l : Ledger) (ref : SourceRef) (d : InternalsDelta) : Ledger :=
  { top := ref, queue := d.apply l.queue, older := l.history
    size := l.size + (d.addedTotal - d.removedTotal) }

open Classical in
/-- What an operation of the feed does to the ledger of a source. -/
noncomputable def Ledger.step (owner source : ShardIdent) (ledger : Option Ledger) :
    FeedOp → Option Ledger
  | .seed src top msgs queueTotal =>
    if src = source ∧ Batch owner msgs ∧ Sourced source top.seqno msgs then
      some { top, queue := {m | m ∈ msgs}, older := [], size := queueTotal.toInt64 }
    else ledger
  | .applyBlock src ref d =>
    if src = source then
      ledger.bind fun l =>
        if ref.seqno ≤ l.top.seqno ∨ ref.seqno ≠ l.top.seqno + 1 then some l
        else if Legal owner source ref l.queue l.size d then some (l.extend ref d)
        else none
    else ledger
  | .dropSource src => if src = source then none else ledger
  | .pruneSources keep => if keep source then ledger else none

/-- The ledger of a source after the operations. -/
noncomputable def Ledger.replay (owner source : ShardIdent) (ops : List FeedOp) : Option Ledger :=
  ops.foldl (Ledger.step owner source) none

/-! ## One block -/

/-- What every run keeps, whatever seqnos its messages carry. -/
structure Filed (run : SourceRun) : Prop where
  indexed : Indexed run
  sorted : Sorted run.entries
  count : run.removedCount = tombstones run.entries

/-- What a block that is accepted leaves. -/
structure Applied (d : InternalsDelta) (s : UInt32) (run run' : SourceRun) : Prop
    extends Filed run' where
  perm : run'.entries.Perm (kill d.removes s run.entries ++ d.added.map (⟨·, 0⟩))
  size : run'.queueSize = run.queueSize + (d.addedTotal - d.removedTotal)
  history : SameHistory run run'

theorem tombstones_fresh (added : List InternalMessage) : tombstones (added.map (⟨·, 0⟩)) = 0 := by
  simp [tombstones, RunEntry.live]

variable {source : ShardIdent} {run : SourceRun} {floor v : UInt32} {n : DestinationState}
  {l : Option Ledger}

/-- The code accepts exactly the legal blocks. -/
theorem applyDelta_spec {owner : ShardIdent} {ref : SourceRef}
    {d : InternalsDelta} {queue : Set InternalMessage} (filed : Filed run) (pos : ref.seqno ≠ 0)
    (serves : ∀ m, m ∈ liveOf run.entries ↔ m ∈ queue) :
    Decides (Legal owner source ref queue run.queueSize d) (Applied d ref.seqno run)
      (run.applyDelta owner source ref d) := by
  have legal : Legal owner source ref queue run.queueSize d ↔
      Batch owner d.added ∧ Sourced source ref.seqno d.added ∧
      (d.removedKeys.Nodup ∧ ∀ k ∈ d.removedKeys, ∃ m ∈ queue, m.key = k) ∧
      (d.removedEnvHashes.Nodup ∧ ∀ h ∈ d.removedEnvHashes,
        ∃ m ∈ queue, m.key ∉ d.removedKeys ∧ m.envHash = h) ∧
      (∀ a ∈ d.added, ∀ m ∈ queue, ¬ d.removes m →
        m.key ≠ a.key ∧ m.envHash ≠ a.envHash ∧ m.order ≠ a.order) ∧
      0 ≤ run.queueSize + (d.addedTotal - d.removedTotal) ∧
      ∀ n ∈ d.expectedQueueSize, run.queueSize + (d.addedTotal - d.removedTotal) = n.toInt64 :=
    ⟨fun h => ⟨h.batch, h.sourced, ⟨h.distinctKeys, h.queuedKeys⟩,
      ⟨h.distinctEnvelopes, h.queuedEnvelopes⟩, h.joins, h.nonnegative, h.expected⟩,
      fun ⟨batch, sourced, keys, envelopes, joins, size⟩ => ⟨batch, sourced, keys.1, keys.2,
        envelopes.1, envelopes.2, joins, size.1, size.2⟩⟩
  apply Decides.congr legal.symm
  apply (Decides.of_iff validateSorted_ok).bind
  intro _ batch _
  apply (Decides.of_iff validateSource_ok).bind
  intro _ sourced _
  apply ((removeEach_spec (·.key)
    (fun _ h => h.keys) pos d.removedKeys filed.indexed filed.count).congr
    (by simp only [serves])).bind
  intro mid _ removedKeys
  have liveMid (m : InternalMessage) :
      m ∈ liveOf mid.entries ↔ m ∈ queue ∧ m.key ∉ d.removedKeys := by
    rw [removedKeys.entries, mem_liveOf_kill pos, serves]
  apply ((removeEach_spec (·.envHash) (fun _ h => h.envelopes) pos d.removedEnvHashes
    removedKeys.indexed removedKeys.count).congr (by simp only [liveMid, and_assoc])).bind
  intro rest _ removedEnvs
  have killed : rest.entries = kill d.removes ref.seqno run.entries := by
    rw [removedEnvs.entries, removedKeys.entries, kill_kill pos]
    rfl
  have joins : (∀ a ∈ d.added, Joins a (liveOf rest.entries)) ↔ ∀ a ∈ d.added, ∀ m ∈ queue,
      ¬ d.removes m → m.key ≠ a.key ∧ m.envHash ≠ a.envHash ∧ m.order ≠ a.order := by
    simp only [Joins, killed, mem_liveOf_kill pos, serves, and_imp]
  have history := removedKeys.history.trans removedEnvs.history
  have sortedRest : Sorted rest.entries := killed ▸ sorted_kill filed.sorted
  -- an empty batch is not looked at; adding it would change nothing
  have grown : Decides (∀ a ∈ d.added, Joins a (liveOf rest.entries)) (Added d.added rest)
      (if d.added.length > 0 then rest.addValidatedToRun d.added else .ok rest) := by
    split
    · exact addValidatedToRun_spec removedEnvs.indexed sortedRest batch
    · have empty : d.added = [] := length_eq_zero_iff.mp (by omega)
      refine ⟨?_, removedEnvs.indexed, ?_, sortedRest, rfl, rfl, .refl rest⟩
      · simp [empty]
      · simp [empty]
  apply (grown.congr joins).bind
  intro run' _ added
  have size : run'.queueSize = run.queueSize :=
    added.size.trans (removedEnvs.size.trans removedKeys.size)
  have count : tombstones run'.entries = tombstones rest.entries := by
    have perm := added.perm.countP_eq fun e => !e.live
    have fresh := tombstones_fresh d.added
    rw [countP_append] at perm
    unfold tombstones at fresh ⊢
    omega
  have expected : ¬ (d.expectedQueueSize.any fun size =>
      run.queueSize + (d.addedTotal - d.removedTotal) != size.toInt64) = true ↔
      ∀ n ∈ d.expectedQueueSize,
        run.queueSize + (d.addedTotal - d.removedTotal) = n.toInt64 := by
    cases d.expectedQueueSize <;> simp
  unfold SourceRun.accountSize
  rw [size, ← expected, ← Int64.not_lt]
  apply Decides.guard
  intro _
  rw [← and_true (¬ _)]
  apply Decides.guard
  intro _
  exact ⟨trivial,
    { indexed := ⟨added.indexed.keys, added.indexed.envelopes⟩
      perm := by rw [← killed]; exact added.perm
      sorted := added.sorted
      size := rfl
      count := by
        rw [added.count, removedEnvs.count, count]
      history := SameHistory.trans history
        ⟨added.history.top, added.history.refs, added.history.seedSeqno⟩ }⟩

/-! ## Runs and their ledgers -/

/-- The run serves the ledger. -/
structure Tracks (run : SourceRun) (l : Ledger) : Prop extends Filed run where
  top : run.top = l.top
  size : run.queueSize = l.size
  descending : l.history.Pairwise fun newer older => older.1.seqno < newer.1.seqno
  refs : ∀ ref ∈ run.refs, ∃ queue, (ref, queue) ∈ l.history
  ascending : run.refs.Pairwise (·.seqno < ·.seqno)
  floor : ∀ ref ∈ run.refs, run.seedSeqno ≤ ref.seqno
  reached : run.seedSeqno ≤ run.top.seqno
  bounded : Bounded run.top.seqno run.entries
  distinct : ∀ v, run.seedSeqno ≤ v → ((viewOf run.entries v).map (·.order)).Nodup
  exact : ∀ x ∈ l.history, run.seedSeqno ≤ x.1.seqno →
    ∀ m, m ∈ viewOf run.entries x.1.seqno ↔ m ∈ x.2

namespace Tracks

variable {run run' : SourceRun} {l : Ledger} {d : InternalsDelta} {ref : SourceRef}

theorem le_top (h : Tracks run l) {x : SourceRef × Set InternalMessage} (mem : x ∈ l.history) :
    x.1.seqno ≤ run.top.seqno := by
  rw [h.top]
  rcases mem_cons.mp mem with rfl | older
  · exact UInt32.le_refl _
  · exact UInt32.le_of_lt ((pairwise_cons.mp h.descending).1 x older)

theorem live (h : Tracks run l) (m : InternalMessage) : m ∈ liveOf run.entries ↔ m ∈ l.queue := by
  have here := h.exact (l.top, l.queue) (.head _) (h.top ▸ h.reached) m
  rw [viewOf_eq_liveOf h.bounded (by rw [h.top]; exact UInt32.le_refl _)] at here
  exact here

/-- A legal block, before its reference is recorded and the history trimmed. -/
theorem extend (h : Tracks run l) (applied : Applied d ref.seqno run run')
    (next : run.top.seqno < ref.seqno) (sourced : ∀ m ∈ d.added, m.sourceSeqno = ref.seqno)
    (ordered : Ordered d.added)
    (joins : ∀ a ∈ d.added, ∀ m ∈ l.queue, ¬ d.removes m → m.order ≠ a.order) :
    Tracks { run' with top := ref, refs := run'.refs ++ [ref] } (l.extend ref d) := by
  have pos : ref.seqno ≠ 0 := by grind
  have bounded : Bounded ref.seqno run'.entries := by
    intro e mem
    rcases mem_append.mp (applied.perm.subset mem) with old | new
    · exact h.bounded.kill (UInt32.le_of_lt next) e old
    · obtain ⟨m, hm, rfl⟩ := mem_map.mp new
      exact ⟨by rw [sourced m hm]; exact UInt32.le_refl _, UInt32.zero_le⟩
  -- an earlier position sees neither the removals nor the additions
  have earlier (v : UInt32) (lt : v < ref.seqno) :
      (viewOf run'.entries v).Perm (viewOf run.entries v) := by
    have hidden : viewOf (d.added.map (⟨·, 0⟩)) v = [] := by
      unfold viewOf
      rw [map_eq_nil_iff, filter_eq_nil_iff]
      intro e mem
      obtain ⟨m, hm, rfl⟩ := mem_map.mp mem
      simp [RunEntry.visibleAt, sourced m hm, UInt32.not_le.mpr lt]
    have perm := viewOf_perm applied.perm v
    rwa [viewOf_append, viewOf_kill lt, hidden, append_nil] at perm
  -- from the block on the view is what is queued
  have now : (liveOf run'.entries).Perm
      ((liveOf run.entries).filter (fun m => !decide (d.removes m)) ++ d.added) := by
    have perm := liveOf_perm applied.perm
    rwa [liveOf_append, liveOf_kill pos, liveOf_fresh] at perm
  have later (v : UInt32) (le : ref.seqno ≤ v) : viewOf run'.entries v = liveOf run'.entries :=
    viewOf_eq_liveOf bounded le
  have same := applied.history
  exact
    { top := rfl
      size := by
        change run'.queueSize = l.size + _
        rw [applied.size, h.size]
      descending := by
        refine pairwise_cons.mpr ⟨fun x mem => ?_, h.descending⟩
        exact UInt32.lt_of_le_of_lt (h.le_top mem) next
      refs := by
        intro r mem
        rcases mem_append.mp mem with old | new
        · rw [same.refs] at old
          obtain ⟨queue, hq⟩ := h.refs r old
          exact ⟨queue, .tail _ hq⟩
        · rw [mem_singleton.mp new]
          exact ⟨_, .head _⟩
      ascending := by
        rw [pairwise_append]
        refine ⟨same.refs ▸ h.ascending, pairwise_singleton _ _, ?_⟩
        intro a ha b hb
        rw [mem_singleton.mp hb]
        rw [same.refs] at ha
        obtain ⟨queue, hq⟩ := h.refs a ha
        exact UInt32.lt_of_le_of_lt (h.le_top hq) next
      floor := by
        intro r mem
        rw [same.seedSeqno]
        rcases mem_append.mp mem with old | new
        · exact h.floor r (same.refs ▸ old)
        · rw [mem_singleton.mp new]
          exact UInt32.le_trans h.reached (UInt32.le_of_lt next)
      reached := by
        rw [same.seedSeqno]
        exact UInt32.le_trans h.reached (UInt32.le_of_lt next)
      indexed := ⟨applied.indexed.keys, applied.indexed.envelopes⟩
      sorted := applied.sorted
      count := applied.count
      bounded := bounded
      distinct := by
        intro v le
        rw [same.seedSeqno] at le
        by_cases lt : v < ref.seqno
        · rw [((earlier v lt).map (·.order)).nodup_iff]
          exact h.distinct v le
        · rw [later v (UInt32.not_lt.mp lt), (now.map (·.order)).nodup_iff, map_append,
            nodup_append]
          have old := h.distinct run.top.seqno h.reached
          rw [viewOf_eq_liveOf h.bounded (UInt32.le_refl _)] at old
          refine ⟨old.sublist (filter_sublist.map _), ?_, ?_⟩
          · exact pairwise_map.mpr (ordered.imp fun lt => ne_of_lt lt)
          · intro x hx y hy
            obtain ⟨m, hm, rfl⟩ := mem_map.mp hx
            obtain ⟨a, ha, rfl⟩ := mem_map.mp hy
            obtain ⟨queued, kept⟩ := mem_filter.mp hm
            exact joins a ha m ((h.live m).mp queued) (by simpa using kept)
      exact := by
        intro x mem le m
        rw [same.seedSeqno] at le
        rcases mem_cons.mp mem with rfl | old
        · change m ∈ viewOf run'.entries ref.seqno ↔ m ∈ d.apply l.queue
          rw [later _ (UInt32.le_refl _), now.mem_iff, mem_append, mem_filter, h.live]
          simp [InternalsDelta.apply]
        · have lt := UInt32.lt_of_le_of_lt (h.le_top old) next
          rw [(earlier _ lt).mem_iff]
          exact h.exact x old le m }

/-- Forgetting positions: a higher floor, fewer references, and entries that no retained position
sees may go. -/
theorem reshape (h : Tracks run l) (top : run'.top = run.top)
    (size : run'.queueSize = run.queueSize)
    (refs : ∀ ref ∈ run'.refs, ∃ queue, (ref, queue) ∈ l.history)
    (ascending : run'.refs.Pairwise (·.seqno < ·.seqno))
    (floor : ∀ ref ∈ run'.refs, run'.seedSeqno ≤ ref.seqno)
    (raised : run.seedSeqno ≤ run'.seedSeqno) (reached : run'.seedSeqno ≤ run.top.seqno)
    (filed : Filed run') (kept : run'.entries.Sublist run.entries)
    (views : ∀ v, run'.seedSeqno ≤ v → viewOf run'.entries v = viewOf run.entries v) :
    Tracks run' l where
  toFiled := filed
  top := top.trans h.top
  size := size.trans h.size
  descending := h.descending
  refs := refs
  ascending := ascending
  floor := floor
  reached := by rw [top]; exact reached
  bounded e mem := by rw [top]; exact h.bounded e (kept.subset mem)
  distinct v le := by rw [views v le]; exact h.distinct v (UInt32.le_trans raised le)
  exact x mem le := by rw [views _ le]; exact h.exact x mem (UInt32.le_trans raised le)

end Tracks

/-! ## Trimming and compacting -/

/-- A tombstone no retained position looks past. -/
def expired (floor : UInt32) (e : RunEntry) : Bool :=
  e.removedAt != 0 && decide (e.removedAt ≤ floor)

theorem not_expired_of_visibleAt {e : RunEntry} (le : floor ≤ v)
    (seen : e.visibleAt v = true) : expired floor e = false := by
  simp only [RunEntry.visibleAt, Bool.and_eq_true, Bool.or_eq_true, beq_iff_eq,
    decide_eq_true_eq] at seen
  rcases seen.2 with queued | later
  · simp [expired, queued]
  · have := UInt32.not_le.mpr (UInt32.lt_of_le_of_lt le later)
    simp [expired, this]

theorem viewOf_unexpired {entries : List RunEntry} (le : floor ≤ v) :
    viewOf (entries.filter fun e => !expired floor e) v = viewOf entries v := by
  unfold viewOf
  rw [filter_filter]
  apply congrArg
  apply filter_congr
  intro e _
  cases seen : e.visibleAt v with
  | false => rfl
  | true => rw [not_expired_of_visibleAt le seen]; rfl

theorem sweep_spec (rest : List RunEntry) : ∀ (run : SourceRun) (at_ : Nat) (kept : List RunEntry),
    Sweeping (·.key) run.byKey kept at_ rest → Sweeping (·.envHash) run.byEnv kept at_ rest →
    kept.length ≤ at_ →
    Indexed (run.sweep at_ rest kept) ∧
      (run.sweep at_ rest kept).entries = kept ++ rest.filter (fun e => !expired run.seedSeqno e) ∧
      (run.sweep at_ rest kept).removedCount + tombstones rest =
        run.removedCount + tombstones (rest.filter fun e => !expired run.seedSeqno e) ∧
      (run.sweep at_ rest kept).queueSize = run.queueSize ∧
      SameHistory run (run.sweep at_ rest kept) := by
  induction rest with
  | nil =>
    intro run at_ kept keys envelopes _
    refine ⟨⟨keys.indexes, envelopes.indexes⟩, ?_, rfl, rfl, ⟨rfl, rfl, rfl⟩⟩
    simp [SourceRun.sweep]
  | cons e rest ih =>
    intro run at_ kept keys envelopes le
    unfold SourceRun.sweep
    split
    next gone =>
      obtain ⟨indexed, entries, count, size, history⟩ :=
        ih { run with removedCount := run.removedCount - 1 } (at_ + 1) kept (keys.drop gone.1)
          (envelopes.drop gone.1) (by omega)
      have out : expired run.seedSeqno e = true := by simp [expired, gone]
      refine ⟨indexed, ?_, ?_, size, ⟨history.top, history.refs, history.seedSeqno⟩⟩
      · rw [entries, filter_cons, out]
        rfl
      · have tomb : tombstones (e :: rest) = tombstones rest + 1 := by
          simp [tombstones, RunEntry.live, gone.1]
        rw [filter_cons, out, tomb]
        dsimp only at count
        simp only [Bool.not_true, Bool.false_eq_true, if_false]
        omega
    next stays =>
      have inside : expired run.seedSeqno e = false := by
        simpa [expired, not_and] using stays
      have filtered : (e :: rest).filter (fun f => !expired run.seedSeqno f) =
          e :: rest.filter fun f => !expired run.seedSeqno f := by
        rw [filter_cons, inside]
        rfl
      have counted (l : List RunEntry) :
          tombstones (e :: l) = tombstones l + if e.live then 0 else 1 := by
        simp only [tombstones, countP_cons]
        cases e.live <;> rfl
      split
      next moves =>
        have key := keys.keep_live moves.1 le
        have envelope := envelopes.keep_live moves.1 le
        rw [if_pos moves.2] at key envelope
        obtain ⟨indexed, entries, count, size, history⟩ := ih
          { run with
            byKey := Function.update run.byKey e.msg.key (some kept.length)
            byEnv := Function.update run.byEnv e.msg.envHash (some kept.length) }
          (at_ + 1) (kept ++ [e]) key envelope (by simp; omega)
        refine ⟨indexed, ?_, ?_, size, ⟨history.top, history.refs, history.seedSeqno⟩⟩
        · rw [entries, filtered, append_assoc]
          rfl
        · rw [filtered, counted, counted]
          dsimp only at count
          omega
      next rests =>
        have step {K : Type} [DecidableEq K] {proj : InternalMessage → K} {index : K → Option Nat}
            (h : Sweeping proj index kept at_ (e :: rest)) :
            Sweeping proj index (kept ++ [e]) (at_ + 1) rest := by
          by_cases live : e.removedAt = 0
          · have := h.keep_live live le
            rwa [if_neg (fun ne => rests ⟨live, ne⟩)] at this
          · exact h.keep_dead live
        obtain ⟨indexed, entries, count, size, history⟩ :=
          ih run (at_ + 1) (kept ++ [e]) (step keys) (step envelopes) (by simp; omega)
        refine ⟨indexed, ?_, ?_, size, history⟩
        · rw [entries, filtered, append_assoc]
          rfl
        · rw [filtered, counted, counted]
          push_cast
          omega

namespace Filed

theorem dated (h : Filed run) {top : SourceRef} {seedSeqno lastExpiryFloor : UInt32}
    {refs : List SourceRef} : Filed { run with top, seedSeqno, refs, lastExpiryFloor } :=
  ⟨⟨h.indexed.keys, h.indexed.envelopes⟩, h.sorted, h.count⟩

theorem sweep (h : Filed run) : Filed (run.sweep 0 run.entries []) := by
  obtain ⟨indexed, entries, count, -⟩ := sweep_spec run.entries run 0 []
    h.indexed.keys.sweeping h.indexed.envelopes.sweeping (Nat.le_refl _)
  have old := h.count
  rw [nil_append] at entries
  refine ⟨indexed, ?_, ?_⟩
  · rw [entries]
    exact h.sorted.sublist filter_sublist
  · rw [entries]
    omega

theorem trim (h : Filed run) : Filed run.trimSourceHistory := by
  unfold SourceRun.trimSourceHistory
  split
  · exact h
  · dsimp only
    split
    · exact h.dated
    · split
      · exact h.dated
      · exact h.dated.sweep

theorem compact (h : Filed run) : Filed run.compact := by
  unfold SourceRun.compact
  split
  · exact h
  · have names {K : Type} [DecidableEq K] {proj : InternalMessage → K} {index : K → Option Nat}
        (indexes : Indexes proj index run.entries) :
        Indexes proj (SourceRun.reindex proj 0 (run.entries.filter (·.live)) fun _ => none)
          (run.entries.filter (·.live)) := by
      apply indexes_reindex
      simpa only [filter_filter, Bool.and_self] using indexes.nodup
    refine ⟨⟨names h.indexed.keys, names h.indexed.envelopes⟩, h.sorted.sublist filter_sublist, ?_⟩
    simp [tombstones, RunEntry.live, countP_filter]

end Filed

namespace Tracks

variable {run run' : SourceRun} {l : Ledger} {d : InternalsDelta} {ref : SourceRef}

theorem trim (h : Tracks run l) : Tracks run.trimSourceHistory l := by
  unfold SourceRun.trimSourceHistory
  split
  · exact h
  next long =>
    have rest : (run.refs.drop (run.refs.length - maxSourceRefHistory)).Sublist run.refs :=
      drop_sublist _ _
    have ascending := h.ascending.sublist rest
    obtain ⟨first, others, dropped⟩ : ∃ first others,
        run.refs.drop (run.refs.length - maxSourceRefHistory) = first :: others := by
      apply exists_cons_of_ne_nil
      intro nil
      have := drop_eq_nil_iff.mp nil
      unfold maxSourceRefHistory at this long
      omega
    simp only [dropped, head?_cons, Option.map_some, Option.getD_some]
    rw [dropped] at ascending rest
    have inside (r : SourceRef) (mem : r ∈ first :: others) : r ∈ run.refs := rest.subset mem
    obtain ⟨queue, hq⟩ := h.refs first (inside first (.head _))
    have first_le := h.le_top hq
    have raised : run.seedSeqno ≤ maxSeqno run.seedSeqno first.seqno := le_maxSeqno_left _ _
    have reached : maxSeqno run.seedSeqno first.seqno ≤ run.top.seqno :=
      maxSeqno_le h.reached first_le
    have floor (r : SourceRef) (mem : r ∈ first :: others) :
        maxSeqno run.seedSeqno first.seqno ≤ r.seqno := by
      apply maxSeqno_le (h.floor r (inside r mem))
      rcases mem_cons.mp mem with rfl | mem
      · exact UInt32.le_refl _
      · exact UInt32.le_of_lt ((pairwise_cons.mp ascending).1 r mem)
    have refs (r : SourceRef) (mem : r ∈ first :: others) := h.refs r (inside r mem)
    split
    · exact h.reshape rfl rfl refs ascending floor raised reached h.dated (List.Sublist.refl _)
        fun _ _ => rfl
    · split
      · exact h.reshape rfl rfl refs ascending floor raised reached h.dated (List.Sublist.refl _)
          fun _ _ => rfl
      · obtain ⟨-, entries, -, size, history⟩ := sweep_spec run.entries
          { run with
            refs := first :: others
            seedSeqno := maxSeqno run.seedSeqno first.seqno
            lastExpiryFloor := maxSeqno run.seedSeqno first.seqno } 0 []
          h.indexed.keys.sweeping h.indexed.envelopes.sweeping (Nat.le_refl _)
        rw [nil_append] at entries
        refine h.reshape history.top size ?_ ?_ ?_ ?_ ?_ h.dated.sweep ?_ ?_
        · rw [history.refs]
          exact refs
        · rw [history.refs]
          exact ascending
        · rw [history.refs, history.seedSeqno]
          exact floor
        · rw [history.seedSeqno]
          exact raised
        · rw [history.seedSeqno]
          exact reached
        · rw [entries]
          exact filter_sublist
        · intro v le
          rw [history.seedSeqno] at le
          rw [entries]
          exact viewOf_unexpired le

theorem compact (h : Tracks run l) : Tracks run.compact l := by
  have filed := h.toFiled.compact
  unfold SourceRun.compact at filed ⊢
  split
  · exact h
  next many =>
    rw [if_neg many] at filed
    have live (l : List RunEntry) : liveOf (l.filter (·.live)) = liveOf l := by
      simp [liveOf]
    have bounded : Bounded run.top.seqno (run.entries.filter (·.live)) := fun e mem =>
      h.bounded e (mem_filter.mp mem).1
    refine h.reshape rfl rfl ?_ (pairwise_singleton _ _) ?_ h.reached (UInt32.le_refl _) filed
      filter_sublist ?_
    · intro ref mem
      rw [mem_singleton.mp mem, h.top]
      exact ⟨_, .head _⟩
    · intro ref mem
      rw [mem_singleton.mp mem]
      exact UInt32.le_refl _
    · intro v le
      rw [viewOf_eq_liveOf bounded le, viewOf_eq_liveOf h.bounded le, live]

end Tracks

/-! ## Seeding -/

theorem seedLoop_eq (msgs : List InternalMessage) : ∀ {run : SourceRun},
    (msgs.map (·.key)).Nodup → (msgs.map (·.envHash)).Nodup →
    (∀ m ∈ msgs, run.byKey m.key = none ∧ run.byEnv m.envHash = none) →
    run.seedLoop msgs = .ok (msgs.foldl SourceRun.push run) := by
  induction msgs with
  | nil =>
    intro run _ _ _
    rfl
  | cons m ms ih =>
    intro run keys envelopes new
    obtain ⟨firstKey, keys⟩ := nodup_cons.mp keys
    obtain ⟨firstEnvelope, envelopes⟩ := nodup_cons.mp envelopes
    unfold SourceRun.seedLoop
    rw [(new m (.head _)).1, (new m (.head _)).2]
    refine ih keys envelopes fun b mem => ?_
    have key : b.key ≠ m.key := fun eq => firstKey (mem_map.mpr ⟨b, mem, eq⟩)
    have envelope : b.envHash ≠ m.envHash := fun eq =>
      firstEnvelope (mem_map.mpr ⟨b, mem, eq⟩)
    simp only [SourceRun.push, update_of_ne key, update_of_ne envelope]
    exact new b (.tail _ mem)

theorem seedRun_spec (owner source : ShardIdent) (top : SourceRef) (msgs : List InternalMessage)
    (queueTotal : UInt64) :
    Decides (Batch owner msgs ∧ Sourced source top.seqno msgs)
      (fun run => Tracks run
        { top, queue := {m | m ∈ msgs}, older := [], size := queueTotal.toInt64 })
      (DestinationState.seedRun owner source top msgs queueTotal) := by
  apply (Decides.of_iff validateSorted_ok).bind
  intro _ batch _
  rw [← and_true (Sourced _ _ _)]
  apply (Decides.of_iff validateSource_ok).bind
  intro _ sourced _
  rw [seedLoop_eq msgs batch.keys batch.envelopes fun _ _ => ⟨rfl, rfl⟩]
  have start : Indexed (DestinationState.emptyRun top queueTotal) :=
    ⟨Indexes.empty, Indexes.empty⟩
  obtain ⟨indexed, entries, size, count, history⟩ :=
    foldl_push_spec msgs start batch.keys batch.envelopes fun _ _ => ⟨rfl, rfl⟩
  refine ⟨trivial, ?_⟩
  have views (v : UInt32) (le : top.seqno ≤ v) : viewOf (msgs.map (⟨·, 0⟩)) v = msgs := by
    have bounded : Bounded top.seqno (msgs.map (⟨·, 0⟩)) := by
      intro e mem
      obtain ⟨m, hm, rfl⟩ := mem_map.mp mem
      exact ⟨(sourced m hm).2, UInt32.zero_le⟩
    rw [viewOf_eq_liveOf bounded le, liveOf_fresh]
  change _ = [] ++ _ at entries
  rw [nil_append] at entries
  exact
    { top := history.top
      size := size
      descending := pairwise_singleton _ _
      refs := by
        rw [history.refs]
        intro ref mem
        rw [mem_singleton.mp mem]
        exact ⟨_, .head _⟩
      ascending := by
        rw [history.refs]
        exact pairwise_singleton _ _
      floor := by
        rw [history.refs, history.seedSeqno]
        intro ref mem
        rw [mem_singleton.mp mem]
        exact UInt32.le_refl _
      reached := by
        rw [history.seedSeqno, history.top]
        exact UInt32.le_refl _
      indexed := indexed
      sorted := by
        rw [entries]
        exact pairwise_map.mpr (batch.ordered.imp le_of_lt)
      count := by
        rw [count, entries, tombstones_fresh]
        rfl
      bounded := by
        rw [history.top, entries]
        intro e mem
        obtain ⟨m, hm, rfl⟩ := mem_map.mp mem
        exact ⟨(sourced m hm).2, UInt32.zero_le⟩
      distinct := by
        intro v le
        rw [history.seedSeqno] at le
        rw [entries, views v le]
        exact pairwise_map.mpr (batch.ordered.imp fun lt => ne_of_lt lt)
      exact := by
        intro x mem _ m
        rw [mem_singleton.mp mem, entries, views _ (UInt32.le_refl _)]
        rfl }

/-! ## Whole runs -/

/-- A message queued by a block says so: the additions of a block carry its seqno. -/
def FeedOp.Stamped : FeedOp → Prop
  | .applyBlock _ ref d => ∀ m ∈ d.added, m.sourceSeqno = ref.seqno
  | _ => True

/-- The run of the source serves its ledger; there is one exactly when there is the other. -/
abbrev Served (n : DestinationState) (source : ShardIdent) (l : Option Ledger) : Prop :=
  Option.Rel Tracks (n.runs source) l

theorem setRun_self (n : DestinationState) (source : ShardIdent) (run : Option SourceRun) :
    (n.setRun source run).runs source = run := by
  simp [DestinationState.setRun]

theorem setRun_of_ne (n : DestinationState) {src : ShardIdent} (ne : src ≠ source)
    (run : Option SourceRun) : (n.setRun src run).runs source = n.runs source := by
  simp [DestinationState.setRun, update_of_ne ne.symm]

theorem served_seed
    (h : Served n source l) (src : ShardIdent) (top : SourceRef) (msgs : List InternalMessage)
    (queueTotal : UInt64) : Served (n.seed src top msgs queueTotal).1 source
      (Ledger.step n.owner source l (.seed src top msgs queueTotal)) := by
  unfold DestinationState.seed Ledger.step
  dsimp only
  have spec := seedRun_spec n.owner src top msgs queueTotal
  cases hrun : DestinationState.seedRun n.owner src top msgs queueTotal with
  | ok run =>
    rw [hrun] at spec
    obtain ⟨ok, tracks⟩ := spec
    by_cases same : src = source
    · subst same
      rw [if_pos ⟨rfl, ok⟩]
      change Option.Rel Tracks ((n.setRun src (some run)).runs src) _
      rw [setRun_self]
      exact .some tracks
    · rw [if_neg fun h => same h.1]
      change Option.Rel Tracks ((n.setRun src (some run)).runs source) _
      rw [setRun_of_ne n same]
      exact h
  | error e =>
    rw [hrun] at spec
    rw [if_neg]
    · exact h
    · rintro ⟨rfl, ok⟩
      exact spec ok

/-- An illegal block untracks the source; a legal one extends what it serves. -/
theorem served_applyBlock
    (h : Served n source l) (src : ShardIdent) (ref : SourceRef) (d : InternalsDelta)
    (stamped : ∀ m ∈ d.added, m.sourceSeqno = ref.seqno) :
    Served (n.applyBlock src ref d).1 source
      (Ledger.step n.owner source l (.applyBlock src ref d)) := by
  by_cases same : src = source
  case neg =>
    have untouched : (n.applyBlock src ref d).1.runs source = n.runs source := by
      unfold DestinationState.applyBlock
      split
      · rfl
      · split
        · split <;> rfl
        · split
          · rfl
          · split
            · exact setRun_of_ne n same _
            · exact setRun_of_ne n same _
    unfold Served Ledger.step
    dsimp only
    rw [untouched, if_neg same]
    exact h
  case pos =>
  subst same
  unfold DestinationState.applyBlock Ledger.step
  dsimp only
  rw [if_pos rfl]
  unfold Served at h
  cases hrun : n.runs src with
  | none =>
    rw [hrun] at h
    cases h
    unfold Served
    rw [hrun]
    exact .none
  | some run =>
    rw [hrun] at h
    cases h with
    | some tracks =>
    rename_i l
    dsimp only [Option.bind_some]
    rw [← tracks.top]
    have stays : Option.Rel Tracks (n.runs src) (some l) := by
      rw [hrun]
      exact .some tracks
    by_cases old : ref.seqno ≤ run.top.seqno
    · rw [if_pos old, if_pos (Or.inl old)]
      split <;> exact stays
    · rw [if_neg old]
      by_cases gap : ref.seqno ≠ run.top.seqno + 1
      · rw [if_pos gap, if_pos (.inr gap)]
        exact stays
      · rw [if_neg gap, if_neg (not_or.mpr ⟨old, gap⟩)]
        have next := UInt32.not_le.mp old
        have pos : ref.seqno ≠ 0 := by
          intro zero
          rw [zero] at next
          exact UInt32.not_lt_zero next
        have spec : Decides (Legal n.owner src ref l.queue run.queueSize d) _ _ :=
          applyDelta_spec tracks.toFiled pos tracks.live
        rw [tracks.size] at spec
        cases hd : run.applyDelta n.owner src ref d with
        | ok run' =>
          rw [hd] at spec
          obtain ⟨legal, applied⟩ := spec
          rw [if_pos legal]
          change Option.Rel Tracks ((n.setRun src _).runs src) _
          rw [setRun_self]
          exact .some (tracks.extend applied next stamped legal.batch.ordered
            fun a ha m hm kept => (legal.joins a ha m hm kept).2.2).trim.compact
        | error e =>
          rw [hd] at spec
          rw [if_neg spec]
          change Option.Rel Tracks ((n.setRun src none).runs src) _
          rw [setRun_self]
          exact .none

theorem served_step (h : Served n source l) (op : FeedOp) (stamped : op.Stamped) :
    Served (n.step op) source (Ledger.step n.owner source l op) ∧ (n.step op).owner = n.owner := by
  cases op with
  | seed src top msgs queueTotal =>
    refine ⟨served_seed h src top msgs queueTotal, ?_⟩
    unfold DestinationState.step DestinationState.seed
    dsimp only
    split <;> rfl
  | applyBlock src ref d =>
    refine ⟨served_applyBlock h src ref d stamped, ?_⟩
    unfold DestinationState.step DestinationState.applyBlock
    dsimp only
    split
    · rfl
    · split
      · split <;> rfl
      · split
        · rfl
        · split <;> rfl
  | dropSource src =>
    refine ⟨?_, rfl⟩
    unfold Served DestinationState.step DestinationState.dropSource Ledger.step
    dsimp only
    split
    next same =>
      rw [same, setRun_self]
      exact .none
    next other =>
      rw [setRun_of_ne n other]
      exact h
  | pruneSources keep =>
    refine ⟨?_, rfl⟩
    unfold Served DestinationState.step DestinationState.pruneSources Ledger.step
    dsimp only
    split
    · exact h
    · exact .none

theorem served_run (ops : List FeedOp) : ∀ {n : DestinationState}
    {l : Option Ledger}, Served n source l → (∀ op ∈ ops, op.Stamped) →
    Served (ops.foldl DestinationState.step n) source (ops.foldl (Ledger.step n.owner source) l) ∧
      (ops.foldl DestinationState.step n).owner = n.owner := by
  induction ops with
  | nil =>
    intro n l h _
    exact ⟨h, rfl⟩
  | cons op ops ih =>
    intro n l h stamped
    obtain ⟨step, owner⟩ := served_step h op (stamped op (.head _))
    obtain ⟨rest, owners⟩ := ih step fun op mem => stamped op (.tail _ mem)
    rw [owner] at rest owners
    exact ⟨rest, owners⟩

/-- What a tracked run shows of its ledger: at every retained reference exactly the messages
queued after that block, in order, and in its indexes exactly what is queued at the head. -/
structure Exact (run : SourceRun) (l : Ledger) : Prop where
  once : l.history.Pairwise fun newer older => older.1.seqno < newer.1.seqno
  views : ∀ ref ∈ run.refs, ∃ queue, (ref, queue) ∈ l.history ∧
    (∀ m, m ∈ run.view ref.seqno ↔ m ∈ queue) ∧ Ordered (run.view ref.seqno)
  byKey : Indexes (·.key) run.byKey run.entries
  byEnv : Indexes (·.envHash) run.byEnv run.entries

theorem Tracks.exact_views {l : Ledger} (h : Tracks run l) : Exact run l where
  once := h.descending
  views ref mem := by
    obtain ⟨queue, hq⟩ := h.refs ref mem
    have floor := h.floor ref mem
    refine ⟨queue, hq, h.exact _ hq floor, ?_⟩
    -- not decreasing, and no order twice
    have sorted : (run.view ref.seqno).Pairwise (·.order ≤ ·.order) :=
      pairwise_map.mpr (h.sorted.sublist filter_sublist)
    have distinct := pairwise_map.mp (h.distinct ref.seqno floor)
    exact (sorted.and distinct).imp fun both => lt_of_le_of_ne both.1 both.2
  byKey := h.indexed.keys
  byEnv := h.indexed.envelopes

theorem Served.exact (h : Served n source l) : Option.Rel Exact (n.runs source) l := by
  unfold Served at h
  generalize n.runs source = run at h
  cases h with
  | some tracks => exact .some tracks.exact_views
  | none => exact .none

/-- After any operations of the feed a source is tracked exactly when its ledger lasts, and its
run is exact at every reference it retains. A block that follows the top and is not legal leaves
the source untracked. -/
theorem run_views_are_exact (owner source : ShardIdent) (ops : List FeedOp)
    (stamped : ∀ op ∈ ops, op.Stamped) :
    let n := ops.foldl DestinationState.step (newDestinationState owner)
    Option.Rel Exact (n.runs source) (Ledger.replay owner source ops) ∧
      ∀ l ref d, Ledger.replay owner source ops = some l → l.top.seqno < ref.seqno →
        ref.seqno = l.top.seqno + 1 → ¬ Legal owner source ref l.queue l.size d →
        (n.applyBlock source ref d).1.runs source = none := by
  intro n
  have start : Served (newDestinationState owner) source none := .none
  obtain ⟨served, owns⟩ := served_run ops start stamped
  refine ⟨Served.exact served, ?_⟩
  · intro l ref d hl lt next illegal
    change Option.Rel Tracks (n.runs source) (Ledger.replay owner source ops) at served
    rw [hl] at served
    cases hrun : n.runs source with
    | none =>
      rw [hrun] at served
      cases served
    | some run =>
      rw [hrun] at served
      cases served with
      | some tracks =>
      rw [← tracks.top] at lt next
      rw [← tracks.size] at illegal
      have pos : ref.seqno ≠ 0 := by
        intro zero
        rw [zero] at lt
        exact UInt32.not_lt_zero lt
      have illegal : ¬ Legal n.owner source ref l.queue run.queueSize d := by
        rw [owns]
        exact illegal
      unfold DestinationState.applyBlock
      rw [hrun]
      dsimp only
      rw [if_neg (UInt32.not_le.mpr lt), if_neg (not_not.mpr next)]
      have spec : Decides (Legal n.owner source ref l.queue run.queueSize d) _ _ :=
        applyDelta_spec tracks.toFiled pos tracks.live
      cases hd : run.applyDelta n.owner source ref d with
      | ok run' =>
        rw [hd] at spec
        exact absurd spec.1 illegal
      | error e => exact setRun_self n source none

/-- One message queued by a block of the root shard of workchain 0. -/
def queuedBy (seqno : UInt32) (hash : Hash) : InternalMessage where
  obj := hash.toNat
  key := ⟨⟨0, 0⟩, hash⟩
  enqueuedLT := 1
  queueLT := 1
  envHash := hash
  envelopeCell := hash
  root := hash
  source := ⟨0, root⟩
  sourceSeqno := seqno
  complete := true

/-- A seed with message 7 and a block that dequeues it and queues message 9. -/
def relay : List FeedOp :=
  [.seed ⟨0, root⟩ ⟨1, 0⟩ [queuedBy 1 7] 1,
    .applyBlock ⟨0, root⟩ ⟨2, 0⟩ ⟨[queuedBy 2 9], [⟨⟨0, 0⟩, 7⟩], [], 1, 1, some 1⟩]

theorem run_views_are_exact_relay :
    let n := relay.foldl DestinationState.step (newDestinationState ⟨0, root⟩)
    (∃ run, n.runs ⟨0, root⟩ = some run) ∧
      Option.Rel Exact (n.runs ⟨0, root⟩) (Ledger.replay ⟨0, root⟩ ⟨0, root⟩ relay) := by
  intro n
  refine ⟨Option.isSome_iff_exists.mp (by decide +kernel), ?_⟩
  refine (run_views_are_exact ⟨0, root⟩ ⟨0, root⟩ relay ?_).1
  simp [relay, FeedOp.Stamped, queuedBy]

/-- A block that queues a message under the seqno of the block before it. -/
def backdates : InternalsDelta := ⟨[queuedBy 1 9], [], [], 1, 0, none⟩

/-- Block 1 left the queue empty, and the view at block 1 shows the message of block 2. -/
theorem backdated_addition_shows_early : let ops : List FeedOp :=
      [.seed ⟨0, root⟩ ⟨1, 0⟩ [] 0, .applyBlock ⟨0, root⟩ ⟨2, 0⟩ backdates]
    let n := ops.foldl DestinationState.step (newDestinationState ⟨0, root⟩)
    ∃ run l, n.runs ⟨0, root⟩ = some run ∧ Ledger.replay ⟨0, root⟩ ⟨0, root⟩ ops = some l ∧
      ⟨1, 0⟩ ∈ run.refs ∧ (⟨1, 0⟩, ∅) ∈ l.history ∧ run.view 1 = [queuedBy 1 9] ∧
      ¬ Exact run l := by
  intro ops n
  have computed : (n.runs ⟨0, root⟩).map (fun run => (run.refs, run.view 1)) =
      some ([⟨1, 0⟩, ⟨2, 0⟩], [queuedBy 1 9]) := by decide +kernel
  obtain ⟨run, tracked, eq⟩ := Option.map_eq_some_iff.mp computed
  obtain ⟨refs, view⟩ := Prod.mk.inj eq
  let first : Ledger := ⟨⟨1, 0⟩, ∅, [], 0⟩
  have seeded :
      Ledger.step ⟨0, root⟩ ⟨0, root⟩ none (.seed ⟨0, root⟩ ⟨1, 0⟩ [] 0) = some first := by
    have empty : Batch ⟨0, root⟩ [] ∧ Sourced ⟨0, root⟩ 1 [] :=
      ⟨validateSorted_ok.mp rfl, validateSource_ok.mp rfl⟩
    refine (if_pos ⟨rfl, empty⟩).trans ?_
    simp [first]
  have legal : Legal ⟨0, root⟩ ⟨0, root⟩ ⟨2, 0⟩ first.queue first.size backdates :=
    { batch := validateSorted_ok.mp (by decide +kernel)
      sourced := validateSource_ok.mp (by decide +kernel)
      distinctKeys := .nil
      queuedKeys := nofun
      distinctEnvelopes := .nil
      queuedEnvelopes := nofun
      joins := fun _ _ _ absent => absent.elim
      nonnegative := by decide
      expected := nofun }
  have extended : Ledger.replay ⟨0, root⟩ ⟨0, root⟩ ops =
      some (first.extend ⟨2, 0⟩ backdates) := by
    unfold Ledger.replay
    rw [foldl_cons, seeded, foldl_cons, foldl_nil]
    unfold Ledger.step
    dsimp only
    rw [if_pos rfl, Option.bind_some, if_neg (by decide), if_pos legal]
  have mem : (⟨1, 0⟩ : SourceRef) ∈ run.refs := by simp [refs]
  have once : ((⟨1, 0⟩, ∅) : SourceRef × Set InternalMessage) ∈
      (first.extend ⟨2, 0⟩ backdates).history := .tail _ (.head _)
  refine ⟨run, _, tracked, extended, mem, once, view, fun exact_ => ?_⟩
  obtain ⟨queue, queued, same, -⟩ := exact_.views ⟨1, 0⟩ mem
  have shown : queuedBy 1 9 ∈ queue := (same _).mp (by rw [view]; exact mem_singleton_self _)
  rcases mem_cons.mp queued with now | before
  · cases congrArg (·.1.seqno) now
  · cases mem_singleton.mp before
    exact shown

end Gton.MsgPool
