import Gton.MsgPool.Lineage

/-!
# Cuts

What a cut shows: the lineage part is the queue of the tip, the whole is the ordered merge of
that queue with the pinned views, and its pages put together are the unlimited cut.
-/

namespace Gton.MsgPool

open Gton.Shard
open Gton.Lib.Merge (Heap drain pending)
open List

/-! ## What the lineage removed -/

namespace BranchCandidate

/-- The identities the lineage removed and did not queue again. -/
def gone (c : BranchCandidate) : List InternalMessage :=
  goneAlong (c.lineage.map (·.delta)).reverse

theorem gone_root (id : Hash) (seqno : UInt32) (base : BranchBase) (delta : BranchDelta) :
    (root id seqno base delta).gone =
      delta.removedOrd.values.filter fun m => decide (m ∉ delta.raw.added) := rfl

theorem gone_child (id : Hash) (seqno : UInt32) (parent : BranchCandidate) (delta : BranchDelta) :
    (child id seqno parent delta).gone =
      (parent.gone ++ delta.removedOrd.values).filter fun m => decide (m ∉ delta.raw.added) := by
  unfold gone goneAlong
  rw [lineage, map_cons, reverse_cons, foldl_append]
  rfl

end BranchCandidate

variable {queue : Set InternalMessage} {c : BranchCandidate} {limit : Int}
  {heap : Heap Started rank} {merge : List Started}

/-- One delta: what is left of the objects so far, without what it removes, and its additions. -/
theorem Resolves.mem_apply {d : BranchDelta}
    {objects gone : List InternalMessage} (h : Resolves queue d)
    (before : ∀ m, m ∈ queue ↔ m ∈ objects ∧ m ∉ gone) (m : InternalMessage) :
    m ∈ d.raw.apply queue ↔ m ∈ objects ++ d.raw.added ∧
      m ∉ (gone ++ d.removedOrd.values).filter fun m => decide (m ∉ d.raw.added) := by
  have values := h.removed.order.mem_values (m := m)
  simp only [InternalsDelta.apply, Set.mem_ofPred_eq, mem_append, mem_filter, values,
    before, decide_eq_true_eq]
  tauto

namespace BranchCandidate.Wf

variable {c : BranchCandidate}

theorem mem_queue (h : c.Wf) (m : InternalMessage) : m ∈ c.queue ↔ m ∈ c.objects ∧ m ∉ c.gone := by
  induction c generalizing m with
  | root _ _ base delta =>
    have start (m : InternalMessage) :
        m ∈ {m | m ∈ base.entries} ↔ m ∈ base.entries ∧ m ∉ ([] : List InternalMessage) := by
      simp
    exact h.2.1.mem_apply start m
  | child id seqno parent delta ih =>
    rw [gone_child]
    exact h.2.1.mem_apply (ih h.1) m

theorem nodup_objects (h : c.Wf) : c.objects.Nodup := by
  have nodup {msgs : List InternalMessage} (ordered : Ordered msgs) : msgs.Nodup :=
    ordered.imp fun lt => fun eq => absurd lt (eq ▸ lt_irrefl _)
  induction c with
  | root _ _ base delta =>
    obtain ⟨wf, resolves, fresh⟩ := h
    exact (nodup wf.ordered).append (nodup resolves.ordered) fun m old new => fresh m new old
  | child _ _ parent delta ih =>
    obtain ⟨wf, resolves, fresh⟩ := h
    exact (ih wf).append (nodup resolves.ordered) fun m old new => fresh m new old

end BranchCandidate.Wf

/-! ## The cursors of a lineage -/

theorem gone_of_no_removals (c : BranchCandidate)
    (none : ((c.lineage.map (·.delta)).map fun d => d.removedOrd.keys.length).sum = 0) :
    c.gone = [] := by
  -- no key, so no value
  have empty (d : BranchDelta) (zero : d.removedOrd.keys.length = 0) :
      d.removedOrd.values = [] := by
    unfold AList.keys List.keys at zero
    unfold Map.values
    rw [length_map] at zero
    rw [length_eq_zero_iff.mp zero]
    rfl
  induction c with
  | root id seqno base delta =>
    simp only [BranchCandidate.lineage, map_cons, map_nil, sum_cons, sum_nil,
      BranchCandidate.delta] at none
    rw [BranchCandidate.gone_root, empty delta (by omega)]
    rfl
  | child id seqno parent delta ih =>
    obtain ⟨here, above⟩ := Nat.add_eq_zero_iff.mp none
    rw [BranchCandidate.gone_child, empty delta here, ih above]
    rfl

theorem isLive_lineageLive (c : BranchCandidate) (m : InternalMessage) :
    isLive (lineageLive c) m = decide (m ∉ c.gone) := by
  unfold lineageLive
  dsimp only
  split
  next none =>
    rw [gone_of_no_removals c none]
    rfl
  · rfl

theorem objects_perm (c : BranchCandidate) :
    (c.base.entries ++ (c.lineage.map (·.delta.raw.added)).flatten).Perm c.objects := by
  induction c with
  | root id seqno base delta =>
    simp [BranchCandidate.base, BranchCandidate.lineage, BranchCandidate.delta,
      BranchCandidate.objects]
  | child id seqno parent delta ih =>
    refine List.Perm.trans ?_ (ih.append_right _)
    rw [append_assoc]
    exact perm_append_comm.append_left _

theorem lineageCursors_items (c : BranchCandidate) :
    ((lineageCursors c).flatMap (·.items)).Perm
      (c.objects.filter fun m => decide (m ∉ c.gone)) := by
  have items (entries : List InternalMessage) :
      BranchCursor.items ⟨entries, lineageLive c⟩ =
        entries.filter fun m => decide (m ∉ c.gone) :=
    filter_congr fun m _ => isLive_lineageLive c m
  unfold lineageCursors
  rw [flatMap_cons, flatMap_map]
  simp only [items]
  rw [flatMap_def, ← filter_flatten, flatten_filter_not_isEmpty,
    ← filter_append]
  exact (objects_perm c).filter _

theorem lineageCursors_sorted (h : c.Wf) :
    ∀ k ∈ lineageCursors c, k.entries.Pairwise (·.order ≤ ·.order) := by
  have sorted {msgs : List InternalMessage} (ordered : Ordered msgs) :
      msgs.Pairwise (·.order ≤ ·.order) := ordered.imp le_of_lt
  have base : Ordered c.base.entries := by
    induction c with
    | root _ _ base delta => exact h.1.ordered
    | child _ _ parent delta ih => exact ih h.1
  have added : ∀ a ∈ c.lineage, Ordered a.delta.raw.added := by
    induction c with
    | root _ _ base delta =>
      intro a mem
      rw [mem_singleton.mp mem]
      exact h.2.1.ordered
    | child _ _ parent delta ih =>
      intro a mem
      rcases mem_cons.mp mem with rfl | mem
      · exact h.2.1.ordered
      · exact ih h.1 base a mem
  intro k mem
  rcases mem_cons.mp mem with rfl | mem
  · exact sorted base
  · obtain ⟨entries, hentries, rfl⟩ := mem_map.mp mem
    obtain ⟨a, ha, rfl⟩ := mem_map.mp (mem_filter.mp hentries).1
    exact sorted (added a ha)

/-! ## The merge -/

theorem pending_started (cursors : List BranchCursor) :
    pending started (cursors.filterMap (·.advance)) = cursors.flatMap (·.items) := by
  unfold pending
  induction cursors with
  | nil => rfl
  | cons k ks ih =>
    rw [flatMap_cons, k.items_eq, ← ih]
    cases next : k.advance with
    | none => simp [next]
    | some c =>
      rw [filterMap_cons_some next, flatMap_cons]
      rfl

theorem advance_items {k : BranchCursor} {c : Started} (next : k.advance = some c) :
    started.items c = k.items := by
  rw [k.items_eq, next]
  rfl

/-- What is merged: everything the cursors show, in order. -/
structure Merges (cursors : List BranchCursor) (messages : List InternalMessage) : Prop where
  perm : messages.Perm (cursors.flatMap (·.items))
  sorted : messages.Pairwise (·.order ≤ ·.order)

section Merge

variable (heap : Heap Started rank) {cursors : List BranchCursor}

theorem mergeBranchCursors_all
    (sorted : ∀ k ∈ cursors, k.entries.Pairwise (·.order ≤ ·.order)) :
    Merges cursors (mergeBranchCursors heap cursors 0).messages := by
  refine ⟨(Lib.Merge.drain_all_perm started heap (le_refl _)).trans ?_, ?_⟩
  · rw [← pending_started]
    exact (heap.init_perm _).flatMap_right _
  have start : ∀ c ∈ heap.init (cursors.filterMap (·.advance)),
      (started.items c).Pairwise (·.order ≤ ·.order) := by
    intro c mem
    obtain ⟨k, hk, next⟩ := mem_filterMap.mp ((heap.init_perm _).subset mem)
    rw [advance_items next]
    exact (sorted k hk).sublist filter_sublist
  have keyed (c : Started) : rank c = (started.current c).order := rfl
  exact Lib.Merge.drain_sorted keyed _ (heap.init_valid _) start

end Merge

/-! ## Lineage cuts -/

/-- The list is exactly the queue: in strictly increasing order, every key and envelope once. -/
structure Shows (queue : Set InternalMessage) (messages : List InternalMessage) : Prop where
  mem : ∀ m, m ∈ messages ↔ m ∈ queue
  ordered : Ordered messages
  keys : (messages.map (·.key)).Nodup
  envelopes : (messages.map (·.envHash)).Nodup

theorem shows_of_sorted {messages : List InternalMessage}
    (distinct : Distinct queue) (nodup : messages.Nodup)
    (sorted : messages.Pairwise (·.order ≤ ·.order)) (mem : ∀ m, m ∈ messages ↔ m ∈ queue) :
    Shows queue messages where
  mem := mem
  ordered := by
    refine (sorted.and nodup).imp_of_mem fun hm hm' both => ?_
    refine lt_of_le_of_ne both.1 fun same => both.2 ?_
    exact distinct.order _ ((mem _).mp hm) _ ((mem _).mp hm') same
  keys := nodup.map_on fun m hm m' hm' same =>
    distinct.key m ((mem m).mp hm) m' ((mem m').mp hm') same
  envelopes := nodup.map_on fun m hm m' hm' same =>
    distinct.env m ((mem m).mp hm) m' ((mem m').mp hm') same

theorem BranchCandidate.Wf.items (h : c.Wf) :
    ((lineageCursors c).flatMap (·.items)).Nodup ∧
      ∀ m, m ∈ (lineageCursors c).flatMap (·.items) ↔ m ∈ c.queue := by
  have perm := lineageCursors_items c
  refine ⟨perm.nodup_iff.mpr (h.nodup_objects.filter _), fun m => ?_⟩
  rw [perm.mem_iff, mem_filter, h.mem_queue, decide_eq_true_eq]

theorem BranchCandidate.Wf.shows (heap : Heap Started rank) (h : c.Wf) :
    Shows c.queue (mergeBranchCursors heap (lineageCursors c) 0).messages := by
  have all := mergeBranchCursors_all heap (lineageCursors_sorted h)
  refine shows_of_sorted h.distinct (all.perm.nodup_iff.mpr h.items.1) all.sorted fun m => ?_
  rw [all.perm.mem_iff]
  exact h.items.2 m

/-! ## Pages -/

/-- Load page after page. -/
def Cut.pages (heap : Heap Started rank) (c : Cut) (limits : List Int) : Cut :=
  limits.foldl (Cut.next heap) c

/-- A cut after so many messages of the merge. -/
structure PagedTo (heap : Heap Started rank) (merge : List Started) (n : Nat) (c : Cut) : Prop where
  messages : c.messages = (drain started heap n merge).1
  more : c.more = !(drain started heap n merge).2.isEmpty
  loadMore : c.loadMore = if (drain started heap n merge).2.isEmpty then none
    else some (drain started heap n merge).2

theorem PagedTo.next {n : Nat} {c : Cut} (h : PagedTo heap merge n c) (pos : 0 < limit) :
    PagedTo heap merge (n + limit.toNat) (c.next heap limit) := by
  have split := Lib.Merge.drain_add started heap n limit.toNat merge
  unfold Cut.next
  rw [h.loadMore]
  by_cases done : (drain started heap n merge).2.isEmpty = true
  · rw [if_pos done]
    have rest : drain started heap limit.toNat (drain started heap n merge).2 = ([], []) := by
      rw [List.isEmpty_iff.mp done]
      cases limit.toNat <;> rfl
    rw [rest, append_nil] at split
    constructor
    · rw [split]
      exact h.messages
    · rw [split, h.more, done]
      rfl
    · rw [split, h.loadMore, if_pos done]
      rfl
  · rw [if_neg done]
    dsimp only
    have running : ¬ (limit ≤ 0 ∨ c.more = false) := by
      rw [h.more]
      simp [done, pos]
    rw [if_neg running]
    constructor
    · rw [split, h.messages]
    · rw [split]
    · rw [split]

theorem PagedTo.pages (limits : List Int) :
    ∀ {n : Nat} {c : Cut}, PagedTo heap merge n c → (∀ l ∈ limits, 0 < l) →
    PagedTo heap merge (n + (limits.map Int.toNat).sum) (c.pages heap limits) := by
  induction limits with
  | nil =>
    intro n c h _
    exact h
  | cons l ls ih =>
    intro n c h pos
    rw [map_cons, sum_cons, ← Nat.add_assoc]
    exact ih (h.next (pos l (.head _))) fun l' mem => pos l' (.tail _ mem)

theorem pagedTo_mergeBranchCursors (heap : Heap Started rank) (cursors : List BranchCursor)
    (pos : 0 < limit) :
    PagedTo heap (heap.init (cursors.filterMap (·.advance))) limit.toNat
      (mergeBranchCursors heap cursors limit) := by
  unfold mergeBranchCursors
  dsimp only
  rw [if_neg (not_le.mpr pos)]
  exact ⟨rfl, rfl, rfl⟩

/-- The pages put together: the unlimited cut as far as the limits reach, and `more` says whether
anything is left of it. -/
theorem mergeBranchCursors_pages (heap : Heap Started rank) (cursors : List BranchCursor)
    {limits : List Int} (pos : ∀ l ∈ limit :: limits, 0 < l) :
    let all := (mergeBranchCursors heap cursors 0).messages
    let paged := (mergeBranchCursors heap cursors limit).pages heap limits
    let reach := ((limit :: limits).map Int.toNat).sum
    paged.messages = all.take reach ∧ (paged.more = false ↔ all.length ≤ reach) := by
  intro all paged reach
  have done : PagedTo heap _ reach paged :=
    (pagedTo_mergeBranchCursors heap cursors (pos limit (.head _))).pages limits
      fun l mem => pos l (.tail _ mem)
  refine ⟨?_, ?_⟩
  · rw [done.messages]
    exact Lib.Merge.drain_eq_take started heap (le_refl _) reach
  · have whole : all.length = _ :=
      (Lib.Merge.drain_all_perm started heap (le_refl _)).length_eq
    rw [whole, done.more, Bool.not_eq_false', List.isEmpty_iff, Lib.Merge.drain_left]

end Gton.MsgPool
