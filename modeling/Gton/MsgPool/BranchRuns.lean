import Gton.MsgPool.Rebase

/-!
# Runs of a branch

In every run in which `RebaseCommitted` is called only while all candidates are on the line of
its tip, every cut replays the queue of its tip. A fork that a rebase left behind can be retained
and found again under a second object of its parent; its cut then shows what it removed.
-/

namespace Gton.MsgPool

open Gton.Shard
open Gton.Lib.Merge (Heap)
open List

/-- What a step is taken with: the additions of a candidate are new objects, and a rebase finds
every candidate on the line of its tip. -/
def Allowed (s : System) : Event → Prop
  | .feed _ => True
  | .branch (.addCandidate request _) =>
    ∀ d, request.delta = some d → ∀ a ∈ d.added, ¬ Known s.pool s.branch a
  | .branch (.rebaseCommitted tip) => s.branch.OnLine tip
  | .branch _ => True

def System.new (destination : ShardIdent) : System :=
  ⟨newDestinationState destination, newBranch destination⟩

inductive Reached (heap : Heap Started rank) (destination : ShardIdent) : System → Prop
  | start : Reached heap destination (.new destination)
  | step {s s' : System} {fuel : Nat} {e : Event} : Reached heap destination s → Allowed s e →
      s.step heap fuel e = some s' → Reached heap destination s'

/-- What every reached state keeps. -/
structure Sound (s : System) : Prop where
  tree : s.branch.Tree []
  pinned : s.branch.Pinned
  tracked : Tracked s.pool

variable {b : Branch} {destination : ShardIdent}

section Step

variable {heap : Heap Started rank} {s : System}

theorem Sound.pins (h : Sound s) (pins : Pins s.pool s.branch b) :
    Sound { s with branch := b } :=
  ⟨pins.tree h.tree, pins.pinned h.tracked h.pinned, h.tracked⟩

theorem Sound.fewer (h : Sound s) (tree : b.Tree [])
    (fewer : ∀ key msgs, b.sources.lookup key = some msgs →
      s.branch.sources.lookup key = some msgs) : Sound { s with branch := b } :=
  ⟨tree, fun key msgs found => h.pinned key msgs (fewer key msgs found), h.tracked⟩

theorem Sound.seedSource (h : Sound s) (source : ShardIdent) (visible : SourceRef)
    (msgs : List InternalMessage) :
    Sound { s with branch := (s.branch.seedSource source visible msgs).1 } := by
  unfold Branch.seedSource
  split
  · exact h
  · exact h
  next sorted _ =>
    have ordered := (validateSorted_ok.mp sorted).ordered.imp le_of_lt
    split
    · exact h
    · split
      · exact h
      · refine ⟨⟨h.tree.named, h.tree.wf, h.tree.up, h.tree.down⟩, ?_, h.tracked⟩
        intro key msgs' found
        by_cases here : key = (source, visible)
        · subst here
          rw [AList.lookup_insert] at found
          cases found
          exact ordered
        · exact h.pinned key msgs' ((AList.lookup_insert_ne here).symm.trans found)

theorem cut_pins (heap : Heap Started rank) (b : Branch) (n : DestinationState)
    (request : CutRequest) : Pins n b (b.cut heap n request).1 := by
  unfold Branch.cut
  split
  · exact .refl n b
  · dsimp only
    split
    · exact .refl n b
    next cursors skip _ =>
      have pins := (pinAll_spec n (request.sources.filter fun s => !skip.contains s.1) b).1
      split
      next eq =>
        rw [eq] at pins
        exact pins
      next eq =>
        rw [eq] at pins
        exact pins

theorem Sound.step (h : Sound s) {s' : System} {fuel : Nat} {e : Event} (allowed : Allowed s e)
    (result : s.step heap fuel e = some s') : Sound s' := by
  cases e with
  | feed op =>
    cases result
    exact ⟨h.tree, h.pinned, h.tracked.step op⟩
  | branch op =>
    obtain ⟨b, hb, rfl⟩ := Option.map_eq_some_iff.mp result
    cases op with
    | seedSource source visible msgs =>
      cases hb
      exact h.seedSource source visible msgs
    | pinSource source visible =>
      cases hb
      split
      · exact h
      · exact h.pins (pinSource_spec s.pool s.branch source visible).1
    | addCandidate request allow =>
      cases hb
      obtain ⟨b₁, pins, same | ⟨c, installs, same⟩⟩ :=
        addCandidate_spec h.tracked h.pinned h.tree allow allowed
      · rw [same]
        exact h.pins pins
      · rw [same]
        have h₁ := h.pins pins
        exact ⟨installs.tree h₁.tree, h₁.pinned, h₁.tracked⟩
    | cut request =>
      cases hb
      exact h.pins (cut_pins heap s.branch s.pool request)
    | retain tip =>
      obtain ⟨⟨b', r⟩, hr, rfl⟩ := Option.map_eq_some_iff.mp hb
      obtain ⟨tree, fewer⟩ := retain_tree h.tree hr
      exact h.fewer tree fewer
    | rebaseCommitted tip =>
      obtain ⟨⟨b', r⟩, hr, rfl⟩ := Option.map_eq_some_iff.mp hb
      obtain ⟨tree, fewer⟩ := rebaseCommitted_tree h.tree allowed hr
      exact h.fewer tree fewer
    | dropCandidate id =>
      obtain ⟨tree, same⟩ := dropCandidate_tree h.tree hb
      exact h.fewer tree fun _ _ found => same ▸ found
    | close =>
      cases hb
      exact h.fewer ⟨nofun, nofun, nofun, nofun⟩ nofun

theorem Reached.sound (h : Reached heap destination s) : Sound s := by
  induction h with
  | start => exact ⟨⟨nofun, nofun, nofun, nofun⟩, nofun, nofun⟩
  | step _ allowed result ih => exact ih.step allowed result

end Step

/-! ## Cuts of a reached state -/

/-- The lineage part of a cut and the sources it stands for. -/
def LineagePart (b : Branch) (request : CutRequest) (lineage : List InternalMessage)
    (skip : List ShardIdent) : Prop :=
  match request.candidateTip with
  | none => lineage = [] ∧ skip = []
  | some id => ∃ tip, b.candidates.lookup id = some tip ∧ Shows tip.queue lineage ∧
    skip = request.candidateSources ++ tip.base.sources.map (·.source)

/-- The list is the ordered merge of the lineage part with the pinned views of the requested
sources it does not stand for. -/
def MergesPinned (b b' : Branch) (request : CutRequest) (messages : List InternalMessage) : Prop :=
  ∃ lineage skip views, LineagePart b request lineage skip ∧
    List.Forall₂ (fun key view => b'.sources.lookup key = some view)
      (request.sources.filter fun s => !skip.contains s.1) views ∧
    messages.Perm (lineage ++ views.flatten) ∧ messages.Pairwise (·.order ≤ ·.order)

/-- Between pages anything may happen to the branch and the pool. -/
inductive Turn
  | event (fuel : Nat) (e : Event)
  | page (limit : Int)

/-- The branch and a cut that is being paged. -/
def Turn.run (heap : Heap Started rank) (turns : List Turn) (s : System × Cut) : System × Cut :=
  turns.foldl (fun s turn =>
    match turn with
    | .event fuel e => ((s.1.step heap fuel e).getD s.1, s.2)
    | .page limit => (s.1, s.2.next heap limit)) s

/-- The limits of the pages. -/
def Turn.limits (turns : List Turn) : List Int :=
  turns.filterMap fun turn =>
    match turn with
    | .event _ _ => none
    | .page limit => some limit

theorem Turn.run_cut (heap : Heap Started rank) (turns : List Turn) : ∀ s : System × Cut,
    (Turn.run heap turns s).2 = s.2.pages heap (Turn.limits turns) := by
  induction turns with
  | nil =>
    intro s
    rfl
  | cons turn turns ih =>
    intro s
    cases turn with
    | event fuel e => exact ih _
    | page limit => exact ih _

section Cut

variable {heap : Heap Started rank} {s : System} {request : CutRequest} {n : DestinationState}

theorem flatMap_views (views : List (List InternalMessage)) :
    (views.map fun v => BranchCursor.mk v none).flatMap (·.items) = views.flatten := by
  have items (v : List InternalMessage) : BranchCursor.items ⟨v, none⟩ = v :=
    filter_eq_self.mpr fun _ _ => rfl
  rw [flatMap_map, flatMap_def]
  simp [items]

/-- The cursors of the tip and the sources it stands for. -/
def TipCursors (b : Branch) (request : CutRequest) (cursors : List BranchCursor)
    (skip : List ShardIdent) : Prop :=
  match request.candidateTip with
  | none => cursors = [] ∧ skip = []
  | some id => ∃ tip, b.candidates.lookup id = some tip ∧ cursors = lineageCursors tip ∧
    skip = request.candidateSources ++ tip.base.sources.map (·.source)

/-- With the cursors known, pinning decides. -/
theorem cut_eq {c : Cut} (ok : (b.cut heap n request).2 = .ok c) :
    ∃ cursors skip, TipCursors b request cursors skip ∧
      ∀ limit, b.cut heap n { request with limit } =
        match b.pinAll n (request.sources.filter fun s => !skip.contains s.1) with
        | (b, .error e) => (b, .error (.cut e)) | (b, .ok views) =>
          (b, .ok (mergeBranchCursors heap (cursors ++ views.map (⟨·, none⟩)) limit)) := by
  by_cases closed : b.closed = true
  · unfold Branch.cut at ok
    rw [if_pos closed] at ok
    cases ok
  · unfold TipCursors
    cases tip : request.candidateTip with
    | none =>
      refine ⟨[], [], ⟨rfl, rfl⟩, fun limit => ?_⟩
      exact (if_neg closed).trans rfl
    | some id =>
      unfold Branch.cut at ok
      rw [if_neg closed] at ok
      simp only [tip] at ok
      cases held : b.candidates.lookup id with
      | none =>
        simp only [held] at ok
        cases ok
      | some t =>
        simp only [held] at ok
        unfold Branch.replaced at ok
        split at ok
        · cases ok
        next admitted =>
          split at admitted
          next all =>
            cases admitted
            refine ⟨_, _, ⟨t, held, rfl, rfl⟩, fun limit => ?_⟩
            unfold Branch.cut
            rw [if_neg closed]
            simp only [held, Branch.replaced, if_pos all]
            rfl
          · cases admitted

theorem cut_ok {c : Cut} (ok : (b.cut heap n request).2 = .ok c) :
    ∃ cursors skip views, TipCursors b request cursors skip ∧
      List.Forall₂ (fun key view => (b.cut heap n request).1.sources.lookup key = some view)
        (request.sources.filter fun s => !skip.contains s.1) views ∧
      ∀ limit, (b.cut heap n { request with limit }).2 =
        .ok (mergeBranchCursors heap (cursors ++ views.map (⟨·, none⟩)) limit) := by
  obtain ⟨cursors, skip, tip, eq⟩ := cut_eq ok
  have pins := (pinAll_spec n (request.sources.filter fun s => !skip.contains s.1) b).2
  have here : b.cut heap n request = _ := eq request.limit
  cases pin : b.pinAll n (request.sources.filter fun s => !skip.contains s.1) with
  | mk b₁ r =>
    rw [pin] at pins here
    cases r with
    | error e =>
      rw [here] at ok
      cases ok
    | ok views =>
      refine ⟨cursors, skip, views, tip, ?_, fun limit => ?_⟩
      · rw [here]
        exact pins views rfl
      · rw [eq limit, pin]

theorem Sound.mergesPinned (h : Sound s) (heap : Heap Started rank) {cursors : List BranchCursor}
    {skip : List ShardIdent} {views : List (List InternalMessage)} {b' : Branch}
    (tip : TipCursors s.branch request cursors skip) (pinned : b'.Pinned)
    (found : List.Forall₂ (fun key view => b'.sources.lookup key = some view)
      (request.sources.filter fun s => !skip.contains s.1) views) :
    MergesPinned s.branch b' request
      (mergeBranchCursors heap (cursors ++ views.map (⟨·, none⟩)) 0).messages := by
  have ordered : ∀ k ∈ views.map (BranchCursor.mk · none),
      k.entries.Pairwise (·.order ≤ ·.order) := by
    intro k mem
    obtain ⟨view, hview, rfl⟩ := mem_map.mp mem
    obtain ⟨key, hkey⟩ := exists_key_of_mem_views found hview
    exact pinned key view hkey
  have merge (sorted : ∀ k ∈ cursors, k.entries.Pairwise (·.order ≤ ·.order)) :
      Merges (cursors ++ views.map (⟨·, none⟩)) _ :=
    mergeBranchCursors_all heap fun k mem => (mem_append.mp mem).elim (sorted k) (ordered k)
  simp only [MergesPinned, LineagePart]
  unfold TipCursors at tip
  cases hid : request.candidateTip with
  | none =>
    simp only [hid] at tip
    obtain ⟨rfl, rfl⟩ := tip
    have all := merge nofun
    refine ⟨[], [], views, ⟨rfl, rfl⟩, found, ?_, all.sorted⟩
    have perm := all.perm
    rwa [flatMap_append, flatMap_views] at perm
  | some id =>
    simp only [hid] at tip
    obtain ⟨t, held, rfl, rfl⟩ := tip
    have wf := h.tree.wf held
    have all := merge (lineageCursors_sorted wf)
    have part := mergeBranchCursors_all heap (lineageCursors_sorted wf)
    refine ⟨_, _, views, ⟨t, held, wf.shows heap, rfl⟩, found, ?_, all.sorted⟩
    have perm := all.perm
    rw [flatMap_append, flatMap_views] at perm
    exact perm.trans (part.perm.symm.append_right _)

theorem cut_unlimited (heap : Heap Started rank) (cursors : List BranchCursor) {limit : Int}
    (le : limit ≤ 0) :
    mergeBranchCursors heap cursors limit =
      ⟨(mergeBranchCursors heap cursors 0).messages, false, none⟩ := by
  unfold mergeBranchCursors
  simp [le, Lib.Merge.drain_all]

end Cut

/-- In every reached state the lineage part of every tip is exactly its queue. Every granted cut
has an unlimited form, the ordered merge of that part with the pinned views of the requested
sources the tip does not stand for; a cut without a limit is that form, and the pages of a cut
with limits put together are that form as far as the limits reach, whatever happens in between. -/
theorem branch_cut_replays_lineage {heap : Heap Started rank} {destination : ShardIdent}
    {s : System} (h : Reached heap destination s) :
    (∀ id tip, s.branch.candidates.lookup id = some tip →
      Shows tip.queue (mergeBranchCursors heap (lineageCursors tip) 0).messages) ∧
    ∀ request c, (s.branch.cut heap s.pool request).2 = .ok c →
      ∃ all, MergesPinned s.branch (s.branch.cut heap s.pool request).1 request all ∧
        (s.branch.cut heap s.pool { request with limit := 0 }).2 = .ok ⟨all, false, none⟩ ∧
        (request.limit ≤ 0 → c = ⟨all, false, none⟩) ∧
        (0 < request.limit → ∀ turns, (∀ limit ∈ Turn.limits turns, 0 < limit) →
          let paged := (Turn.run heap turns (s, c)).2
          let reach := ((request.limit :: Turn.limits turns).map Int.toNat).sum
          paged.messages = all.take reach ∧ (paged.more = false ↔ all.length ≤ reach)) := by
  have sound := h.sound
  refine ⟨fun id tip held => (sound.tree.wf held).shows heap, fun request c ok => ?_⟩
  obtain ⟨cursors, skip, views, tip, found, eq⟩ := cut_ok ok
  have here : (s.branch.cut heap s.pool request).2 = _ := eq request.limit
  rw [ok] at here
  cases here
  have pinned := (cut_pins heap s.branch s.pool request).pinned sound.tracked sound.pinned
  refine ⟨_, sound.mergesPinned heap tip pinned found, ?_, fun le => ?_,
    fun pos turns positive => ?_⟩
  · rw [eq 0, cut_unlimited heap _ (le_refl 0)]
  · exact cut_unlimited heap _ le
  · intro paged reach
    have all : ∀ l ∈ request.limit :: Turn.limits turns, 0 < l := by
      intro l mem
      rcases mem_cons.mp mem with rfl | mem
      · exact pos
      · exact positive l mem
    have pages := mergeBranchCursors_pages heap (cursors ++ views.map (⟨·, none⟩)) all
    rw [← Turn.run_cut heap turns (s, _)] at pages
    exact pages

/-- A delta that queues one message. -/
def queues (m : InternalMessage) : InternalsDelta := ⟨[m], [], [], 1, 0, none⟩

/-- Add a candidate whose messages are new, while the pool has no run. -/
def Branch.addFresh (destination : ShardIdent) (b : Branch) (request : CandidateRequest) :
    Option Branch :=
  if ∀ d ∈ request.delta, ∀ a ∈ d.added, a ∉ b.candidates.entries.flatMap (·.2.objects) ++
      b.sources.entries.flatMap (·.2) then
    some (b.addCandidate (newDestinationState destination) request false).1
  else none

theorem reached_addFresh {heap : Heap Started rank} (requests : List CandidateRequest) :
    ∀ {b b' : Branch}, Reached heap destination ⟨newDestinationState destination, b⟩ →
      requests.foldlM (Branch.addFresh destination) b = some b' →
      Reached heap destination ⟨newDestinationState destination, b'⟩ := by
  induction requests with
  | nil =>
    rintro b b' h ⟨⟩
    exact h
  | cons request requests ih =>
    intro b b' h run
    obtain ⟨b₁, first, rest⟩ := Option.bind_eq_some_iff.mp run
    obtain ⟨fresh, eq⟩ := Option.ite_none_right_eq_some.mp first
    cases eq
    have result : System.step heap 0 ⟨newDestinationState destination, b⟩
        (.branch (.addCandidate request false)) = some ⟨_, _⟩ := rfl
    refine ih (.step h ?_ result) rest
    intro d hd a ha known
    refine fresh d hd a ha ?_
    rcases known with ⟨id, c, found, mem⟩ | ⟨key, msgs, found, mem⟩ | ⟨source, run, found, -⟩
    · exact mem_append_left _ (mem_flatMap_of_mem (AList.mem_lookup_iff.mp found) mem)
    · exact mem_append_right _ (mem_flatMap_of_mem (AList.mem_lookup_iff.mp found) mem)
    · cases found

theorem Reached.feed {heap : Heap Started rank} (ops : List FeedOp) :
    ∀ {s : System}, Reached heap destination s →
      Reached heap destination { s with pool := ops.foldl DestinationState.step s.pool } := by
  induction ops with
  | nil => exact id
  | cons op ops ih =>
    intro s h
    have result : s.step heap 0 (.feed op) = some { s with pool := s.pool.step op } := rfl
    exact ih (.step (e := .feed op) h trivial result)

theorem Branch.Tree.onLine {tip : Hash} (tree : b.Tree [])
    (ids : (b.candidates.lookup tip).all (fun t => b.candidates.entries.all fun c =>
      t.lineage.any (·.id = c.1)) = true) : b.OnLine tip := by
  intro t held id c found
  rw [held] at ids
  have above := all_eq_true.mp ids ⟨id, c⟩ (AList.mem_lookup_iff.mp found)
  obtain ⟨a, ha, same⟩ := any_eq_true.mp above
  exact .inl (tree.eq_of_mem_lineage held found ha (of_decide_eq_true same) ▸ ha)

/-- A message of the masterchain. -/
def masterMessage : InternalMessage := { queuedBy 4 6 with source := ⟨-1, root⟩ }

/-- Message 5 in the queue of the root shard, and one in the masterchain's. -/
def pinnedPair : Branch :=
  (((newBranch ⟨0, root⟩).seedSource ⟨0, root⟩ ⟨1, 0⟩ [queuedBy 1 5]).1.seedSource
    ⟨-1, root⟩ ⟨4, 0⟩ [masterMessage]).1

/-- Candidate 1 queues message 7; over it fork 2, which dequeues 5 by its key and queues 8, and 3,
which dequeues 7 by its envelope. -/
def forking : List CandidateRequest :=
  [⟨1, none, 2, [⟨⟨0, root⟩, ⟨1, 0⟩⟩], some (queues (queuedBy 2 7))⟩,
    ⟨2, some 1, 3, [], some ⟨[queuedBy 3 8], [(queuedBy 1 5).key], [], 1, 1, none⟩⟩,
    ⟨3, some 1, 3, [], some ⟨[], [], [(queuedBy 2 7).envHash], 0, 1, none⟩⟩]

/-- The block of candidate 1 is applied. -/
def committing : List FeedOp :=
  [.seed ⟨0, root⟩ ⟨1, 0⟩ [queuedBy 1 5] 1,
    .applyBlock ⟨0, root⟩ ⟨2, 1⟩ (queues { queuedBy 2 7 with obj := 0 })]

/-- Both forks show their own queue. The three pages of a cut at candidate 2, with a rebase between
them, are its queue and the masterchain's, and the rebased candidate shows its queue as before. -/
theorem branch_cut_replays_lineage_forked : let heap := Heap.sorted rank
    let request : CutRequest :=
      ⟨[(⟨0, root⟩, ⟨1, 0⟩), (⟨-1, root⟩, ⟨4, 0⟩)], some 2, [], 1⟩
    let turns : List Turn := [.page 1, .event 10 (.branch (.retain (some 2))),
      .event 10 (.branch (.rebaseCommitted 2)), .page 1]
    ∃ s left right c, Reached heap ⟨0, root⟩ s ∧
      s.branch.candidates.lookup 2 = some left ∧ s.branch.candidates.lookup 3 = some right ∧
      Shows left.queue [queuedBy 2 7, queuedBy 3 8] ∧ Shows right.queue [queuedBy 1 5] ∧
      (s.branch.cut heap s.pool request).2 = .ok c ∧ c.messages = [masterMessage] ∧
      let paged := Turn.run heap turns (s, c)
      paged.2.messages = [masterMessage, queuedBy 2 7, queuedBy 3 8] ∧ paged.2.more = false ∧
      Reached heap ⟨0, root⟩ paged.1 ∧
      ∃ tip, paged.1.branch.candidates.lookup 2 = some tip ∧ tip.parent = none ∧
        Shows tip.queue [queuedBy 2 7, queuedBy 3 8] := by
  intro heap request turns
  let pool := committing.foldl DestinationState.step (newDestinationState ⟨0, root⟩)
  let shown (tip : BranchCandidate) := (mergeBranchCursors heap (lineageCursors tip) 0).messages
  have computed : (do
      let b ← forking.foldlM (Branch.addFresh ⟨0, root⟩) pinnedPair
      let retained ← System.step heap 10 ⟨pool, b⟩ (.branch (.retain (some 2)))
      let t ← retained.branch.candidates.lookup 2
      let rebased ← retained.step heap 10 (.branch (.rebaseCommitted 2))
      let left ← b.candidates.lookup 2
      let right ← b.candidates.lookup 3
      let tip ← rebased.branch.candidates.lookup 2
      let c ← (b.cut heap pool request).2.toOption
      let all ← (b.cut heap pool { request with limit := 0 }).2.toOption
      some ((shown left, shown right), (shown tip, tip.parent.isNone), c.messages, all.messages,
        retained.branch.candidates.entries.all fun c => t.lineage.any (·.id = c.1))) =
      some (([queuedBy 2 7, queuedBy 3 8], [queuedBy 1 5]), ([queuedBy 2 7, queuedBy 3 8], true),
        [masterMessage], [masterMessage, queuedBy 2 7, queuedBy 3 8], true) := by
    decide +kernel
  obtain ⟨b, added, found⟩ := Option.bind_eq_some_iff.mp computed
  obtain ⟨retained, retain, found⟩ := Option.bind_eq_some_iff.mp found
  obtain ⟨t, held, found⟩ := Option.bind_eq_some_iff.mp found
  obtain ⟨rebased, rebase, found⟩ := Option.bind_eq_some_iff.mp found
  obtain ⟨left, heldLeft, found⟩ := Option.bind_eq_some_iff.mp found
  obtain ⟨right, heldRight, found⟩ := Option.bind_eq_some_iff.mp found
  obtain ⟨tip, heldTip, found⟩ := Option.bind_eq_some_iff.mp found
  obtain ⟨c, ok, found⟩ := Option.bind_eq_some_iff.mp found
  obtain ⟨unlimited, whole, eq⟩ := Option.bind_eq_some_iff.mp found
  simp only [Option.some.injEq, Prod.mk.injEq] at eq
  obtain ⟨⟨eqLeft, eqRight⟩, ⟨eqTip, isRoot⟩, page, all, line⟩ := eq
  have succeeded {r : Except BranchError Cut} {c : Cut} (some_ : r.toOption = some c) :
      r = .ok c := by
    cases r with
    | error => cases some_
    | ok => exact congrArg _ (Option.some.inj some_)
  have idle {s s' : System} {e : Event} (h : Reached heap ⟨0, root⟩ s) (allowed : Allowed s e)
      (result : s.step heap 0 e = some s') : Reached heap ⟨0, root⟩ s' := h.step allowed result
  have pinned : Reached heap ⟨0, root⟩ ⟨newDestinationState ⟨0, root⟩, pinnedPair⟩ :=
    idle (e := .branch (.seedSource ⟨-1, root⟩ ⟨4, 0⟩ [masterMessage])) (idle (e := .branch
      (.seedSource ⟨0, root⟩ ⟨1, 0⟩ [queuedBy 1 5])) .start trivial rfl) trivial rfl
  have h : Reached heap ⟨0, root⟩ ⟨pool, b⟩ :=
    (reached_addFresh forking pinned added).feed committing
  have h₁ := h.step (e := .branch (.retain (some 2))) trivial retain
  have onLine : retained.branch.OnLine 2 := h₁.sound.tree.onLine (by rw [held]; exact line)
  have h₂ := h₁.step (e := .branch (.rebaseCommitted 2)) onLine rebase
  have after : (Turn.run heap turns (⟨pool, b⟩, c)).1 = rebased := by
    change (((System.step heap 10 _ _).getD _).step heap 10 _).getD _ = rebased
    rw [retain, Option.getD_some, rebase, Option.getD_some]
  obtain ⟨cut, -, eqCut, -, pages⟩ := (branch_cut_replays_lineage h).2 request c (succeeded ok)
  obtain ⟨messages, more⟩ := pages (by decide) turns (by decide)
  cases (succeeded whole).symm.trans eqCut
  cases all
  refine ⟨_, left, right, c, h, heldLeft, heldRight, ?_, ?_, succeeded ok, page, messages,
    more.mpr (by decide), after ▸ h₂, tip, after ▸ heldTip, Option.isNone_iff_eq_none.mp isRoot, ?_⟩
  · exact eqLeft ▸ (branch_cut_replays_lineage h).1 2 left heldLeft
  · exact eqRight ▸ (branch_cut_replays_lineage h).1 3 right heldRight
  · exact eqTip ▸ (branch_cut_replays_lineage h₂).1 2 tip heldTip

/-! ## A fork that outlives its parent -/

/-- The messages an event brings along. -/
def Event.brings : Event → List InternalMessage
  | .feed (.seed _ _ msgs _) => msgs
  | .feed (.applyBlock _ _ d) => d.added
  | .branch (.seedSource _ _ msgs) => msgs
  | .branch (.addCandidate request _) => (request.delta.map (·.added)).getD []
  | _ => []

/-- Candidate 2 over 1 queues message 7; candidates 3, which dequeues it, and 4 fork from 2. Both
1 and 2 are applied. The rebase at 4 forgets 2, and 3 is left behind. It is retained, 1 and 2 are
added again with a new object for the message, and the next rebase finds 3 below the new 2. -/
def lateFork : List Event :=
  let idle : InternalsDelta := ⟨[], [], [], 0, 0, none⟩
  let message (obj : Nat) : InternalMessage := { queuedBy 3 7 with obj }
  [.feed (.seed ⟨0, root⟩ ⟨1, 0⟩ [] 0),
    .branch (.addCandidate ⟨1, none, 2, [⟨⟨0, root⟩, ⟨1, 0⟩⟩], some idle⟩ false),
    .branch (.addCandidate ⟨2, some 1, 3, [], some (queues (message 1))⟩ false),
    .branch (.addCandidate ⟨3, some 2, 4, [], some ⟨[], [(message 1).key], [], 0, 1, none⟩⟩ false),
    .branch (.addCandidate ⟨4, some 2, 4, [], some idle⟩ false),
    .feed (.applyBlock ⟨0, root⟩ ⟨2, 1⟩ idle),
    .feed (.applyBlock ⟨0, root⟩ ⟨3, 2⟩ (queues (message 2))),
    .branch (.rebaseCommitted 4),
    .branch (.retain (some 3)),
    .branch (.addCandidate ⟨1, none, 2, [⟨⟨0, root⟩, ⟨1, 0⟩⟩], some idle⟩ false),
    .branch (.addCandidate ⟨2, some 1, 3, [], some (queues (message 3))⟩ false),
    .branch (.rebaseCommitted 2)]

theorem BranchCandidate.not_mem_queue_of_removes {c : BranchCandidate} {m : InternalMessage}
    (removes : c.delta.raw.removes m) (absent : m ∉ c.delta.raw.added) : m ∉ c.queue := by
  cases c with
  | root =>
    rintro (⟨-, kept⟩ | new)
    · exact kept removes
    · exact absent new
  | child =>
    rintro (⟨-, kept⟩ | new)
    · exact kept removes
    · exact absent new

/-- No message is brought twice, and still the cut at candidate 3 shows what it dequeued. -/
theorem late_fork_shows_removed :
    (lateFork.flatMap Event.brings).Nodup ∧
    ∃ s tip m, lateFork.foldlM (System.step (Heap.sorted rank) 10) (.new ⟨0, root⟩) = some s ∧
      s.branch.candidates.lookup 3 = some tip ∧
      m ∈ (mergeBranchCursors (Heap.sorted rank) (lineageCursors tip) 0).messages ∧
      m ∉ tip.queue := by
  refine ⟨by decide +kernel, ?_⟩
  have cut : ((lateFork.foldlM (System.step (Heap.sorted rank) 10) (.new ⟨0, root⟩)).bind
      fun s => (s.branch.candidates.lookup 3).map fun tip =>
        ((mergeBranchCursors (Heap.sorted rank) (lineageCursors tip) 0).messages,
          tip.delta.raw.removedKeys, tip.delta.raw.added)) =
      some ([{ queuedBy 3 7 with obj := 3 }], [(queuedBy 3 7).key], []) := by
    decide +kernel
  obtain ⟨s, run, found⟩ := Option.bind_eq_some_iff.mp cut
  obtain ⟨tip, held, eq⟩ := Option.map_eq_some_iff.mp found
  simp only [Prod.mk.injEq] at eq
  obtain ⟨messages, keys, added⟩ := eq
  refine ⟨s, tip, _, run, held, messages ▸ mem_singleton_self _, ?_⟩
  refine BranchCandidate.not_mem_queue_of_removes (.inl ?_) (added ▸ not_mem_nil)
  rw [keys]
  exact mem_singleton_self _

end Gton.MsgPool
