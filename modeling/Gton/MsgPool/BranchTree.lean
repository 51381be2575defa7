import Gton.MsgPool.Cuts

/-!
# The tree of candidates

Every operation keeps the tree a branch holds: a candidate is held under its own id, it is well
formed, its parent is held as well and has it among its children. A rebase onto a committed
ancestor keeps it when the whole tree is on the line of the tip.
-/

namespace Gton.MsgPool

open Gton.Shard Gton.Lib.Fallible
open Gton.Lib.Merge (Heap)
open List AList

/-- The tree, up to candidates whose parent is gone and that are about to go. -/
structure Branch.Tree (b : Branch) (detached : List Hash) : Prop where
  named : ∀ {id c}, b.candidates.lookup id = some c → c.id = id
  wf : ∀ {id c}, b.candidates.lookup id = some c → c.Wf
  up : ∀ {id c p}, b.candidates.lookup id = some c → c.parent = some p →
    (b.candidates.lookup p.id = some p ∧ id ∈ b.kids p.id) ∨ id ∈ detached
  down : ∀ {id pid}, id ∈ b.kids pid →
    ∃ c p, b.candidates.lookup id = some c ∧ c.parent = some p ∧ p.id = pid

/-- Every pinned view is in order. A view of additions that carry an older seqno than their
block's may show one place of the order twice. -/
def Branch.Pinned (b : Branch) : Prop :=
  ∀ key msgs, b.sources.lookup key = some msgs → msgs.Pairwise (·.order ≤ ·.order)

def Tracked (n : DestinationState) : Prop :=
  ∀ source run, n.runs source = some run → Filed run

namespace Tracked

variable {n : DestinationState}

theorem setRun (h : Tracked n) {src : ShardIdent} {run : Option SourceRun}
    (new : ∀ r, run = some r → Filed r) : Tracked (n.setRun src run) := by
  intro source r found
  by_cases same : src = source
  · rw [same, setRun_self] at found
    exact new r found
  · rw [setRun_of_ne n same] at found
    exact h source r found

/-- The feed keeps the runs in order, whatever seqnos its messages carry. -/
theorem step (h : Tracked n) (op : FeedOp) : Tracked (n.step op) := by
  cases op with
  | seed src top msgs queueTotal =>
    have spec := seedRun_spec n.owner src top msgs queueTotal
    unfold DestinationState.step DestinationState.seed
    dsimp only
    split
    · exact h
    next ok =>
      rw [ok] at spec
      refine h.setRun ?_
      rintro r ⟨⟩
      exact spec.2.toFiled
  | applyBlock src ref d =>
    unfold DestinationState.step DestinationState.applyBlock
    dsimp only
    split
    · exact h
    next run found =>
      split
      · split <;> exact h
      next new =>
        split
        · exact h
        · split
          · exact h.setRun nofun
          next ok =>
            have pos : ref.seqno ≠ 0 := fun zero => new (zero ▸ UInt32.zero_le)
            have spec := @applyDelta_spec src run n.owner ref d {m | m ∈ liveOf run.entries}
              (h src run found) pos fun _ => Iff.rfl
            rw [ok] at spec
            refine h.setRun ?_
            rintro r ⟨⟩
            exact spec.2.toFiled.dated.trim.compact
  | dropSource src => exact h.setRun nofun
  | pruneSources keep =>
    intro source run found
    unfold DestinationState.step DestinationState.pruneSources at found
    dsimp only at found
    split at found
    · exact h source run found
    · cases found

end Tracked

/-! ## Pins -/

/-- What pinning does: it adds views of the runs. -/
structure Pins (n : DestinationState) (b b' : Branch) : Prop where
  candidates : b'.candidates = b.candidates
  children : b'.children = b.children
  destination : b'.destination = b.destination
  keeps : ∀ {key msgs}, b.sources.lookup key = some msgs → b'.sources.lookup key = some msgs
  grown : ∀ {key msgs}, b'.sources.lookup key = some msgs → b.sources.lookup key = some msgs ∨
    ∃ run, n.runs key.1 = some run ∧ run.hasRef key.2 = true ∧ msgs = run.view key.2.seqno

variable {detached : List Hash} {b b' : Branch} {n : DestinationState}
  {c candidate : BranchCandidate} {id pid id' : Hash} {fuel : Nat}

namespace Pins

variable {n : DestinationState} {b b' b'' : Branch}

theorem refl (n : DestinationState) (b : Branch) : Pins n b b := ⟨rfl, rfl, rfl, id, .inl⟩

theorem trans (h : Pins n b b') (h' : Pins n b' b'') : Pins n b b'' where
  candidates := h'.candidates.trans h.candidates
  children := h'.children.trans h.children
  destination := h'.destination.trans h.destination
  keeps found := h'.keeps (h.keeps found)
  grown found := by
    rcases h'.grown found with found | new
    · exact h.grown found
    · exact .inr new

theorem pinned (h : Pins n b b') (tracked : Tracked n) (pinned : b.Pinned) : b'.Pinned := by
  intro key msgs found
  rcases h.grown found with found | ⟨run, hrun, -, rfl⟩
  · exact pinned key msgs found
  · exact pairwise_map.mpr ((tracked key.1 run hrun).sorted.sublist filter_sublist)

theorem tree (h : Pins n b b') (t : b.Tree detached) : b'.Tree detached := by
  have kids (id : Hash) : b'.kids id = b.kids id := by
    unfold Branch.kids
    rw [h.children]
  constructor
  · rw [h.candidates]
    exact t.named
  · rw [h.candidates]
    exact t.wf
  · simp only [kids, h.candidates]
    exact t.up
  · simp only [kids, h.candidates]
    exact t.down

end Pins

theorem pinSource_spec (n : DestinationState) (b : Branch) (source : ShardIdent)
    (visible : SourceRef) :
    Pins n b (b.pinSource n source visible).1 ∧
      ∀ view, (b.pinSource n source visible).2 = .ok view →
        (b.pinSource n source visible).1.sources.lookup (source, visible) = some view := by
  unfold Branch.pinSource
  split
  next found =>
    refine ⟨.refl n b, ?_⟩
    rintro view ⟨⟩
    exact found
  next absent =>
    split
    · refine ⟨.refl n b, ?_⟩
      rintro view ⟨⟩
    next run hrun =>
      unfold DestinationState.sourceRunAt at hrun
      split at hrun
      · cases hrun
      next run' tracked =>
        obtain ⟨-, hrun⟩ := guard_eq_ok.mp hrun
        obtain ⟨-, hrun⟩ := guard_eq_ok.mp hrun
        obtain ⟨has, hrun⟩ := guard_eq_ok.mp hrun
        cases hrun
        simp only [Bool.not_eq_true, Bool.not_eq_false'] at has
        refine ⟨⟨rfl, rfl, rfl, ?_, ?_⟩, ?_⟩
        · intro key msgs found
          by_cases here : key = (source, visible)
          · subst here
            rw [absent] at found
            cases found
          · exact (lookup_insert_ne here).trans found
        · intro key msgs found
          by_cases here : key = (source, visible)
          · subst here
            rw [lookup_insert] at found
            cases found
            exact .inr ⟨run, tracked, has, rfl⟩
          · exact .inl ((lookup_insert_ne here).symm.trans found)
        · rintro view ⟨⟩
          exact lookup_insert _

theorem pinAll_spec (n : DestinationState) (keys : List (ShardIdent × SourceRef)) :
    ∀ b : Branch, Pins n b (b.pinAll n keys).1 ∧
      ∀ views, (b.pinAll n keys).2 = .ok views →
        List.Forall₂ (fun key view => (b.pinAll n keys).1.sources.lookup key = some view)
          keys views := by
  induction keys with
  | nil =>
    intro b
    refine ⟨.refl n b, ?_⟩
    rintro views ⟨⟩
    exact .nil
  | cons key keys ih =>
    obtain ⟨source, visible⟩ := key
    intro b
    obtain ⟨pins, view⟩ := pinSource_spec n b source visible
    unfold Branch.pinAll
    cases first : b.pinSource n source visible with
    | mk b₁ r =>
      rw [first] at pins view
      cases r with
      | error e =>
        refine ⟨pins, ?_⟩
        rintro views ⟨⟩
      | ok v =>
        obtain ⟨pins', rest⟩ := ih b₁
        dsimp only
        cases others : Branch.pinAll n keys b₁ with
        | mk b₂ r' =>
          rw [others] at pins' rest
          cases r' with
          | error e =>
            refine ⟨pins.trans pins', ?_⟩
            rintro views ⟨⟩
          | ok vs =>
            refine ⟨pins.trans pins', ?_⟩
            rintro views ⟨⟩
            exact .cons (pins'.keeps (view v rfl)) (rest vs rfl)

theorem exists_key_of_mem_views {keys : List (ShardIdent × SourceRef)}
    {views : List (List InternalMessage)} {view : List InternalMessage}
    (pinned : List.Forall₂ (fun key view => b.sources.lookup key = some view) keys views)
    (mem : view ∈ views) : ∃ key, b.sources.lookup key = some view := by
  induction pinned with
  | nil => cases mem
  | cons first _ ih =>
    rcases mem_cons.mp mem with rfl | mem
    · exact ⟨_, first⟩
    · exact ih mem

/-! ## New candidates -/

/-- The messages that exist: in a candidate, in a pinned view or in a run of the pool. -/
def Known (n : DestinationState) (b : Branch) (m : InternalMessage) : Prop :=
  (∃ id c, b.candidates.lookup id = some c ∧ m ∈ c.objects) ∨
    (∃ key msgs, b.sources.lookup key = some msgs ∧ m ∈ msgs) ∨
    ∃ source run, n.runs source = some run ∧ ∃ e ∈ run.entries, e.msg = m

theorem Pins.known (h : Pins n b b') {key : ShardIdent × SourceRef}
    {msgs : List InternalMessage} {m : InternalMessage} (found : b'.sources.lookup key = some msgs)
    (mem : m ∈ msgs) : Known n b m := by
  rcases h.grown found with found | ⟨run, hrun, -, rfl⟩
  · exact .inr (.inl ⟨key, msgs, found, mem⟩)
  · obtain ⟨e, he, rfl⟩ := mem_map.mp mem
    exact .inr (.inr ⟨key.1, run, hrun, e, (mem_filter.mp he).1, rfl⟩)

theorem snapshotBase_spec (tracked : Tracked n) (pinned : b.Pinned)
    (sources : List CandidateSource) :
    Pins n b (b.snapshotBase n sources).1 ∧
      ∀ base, (b.snapshotBase n sources).2 = .ok base →
        base.Wf ∧ ∀ m ∈ base.entries, Known n b m := by
  obtain ⟨pins, views⟩ := pinAll_spec n (sources.map fun s => (s.source, s.visible)) b
  have ordered := pins.pinned tracked pinned
  unfold Branch.snapshotBase
  cases all : b.pinAll n (sources.map fun s => (s.source, s.visible)) with
  | mk b₁ r =>
    rw [all] at pins views ordered
    have view {streams : List (List InternalMessage)} (ok : r = .ok streams)
        {v : List InternalMessage} (mem : v ∈ streams) :
        ∃ key, b₁.sources.lookup key = some v :=
      exists_key_of_mem_views (views streams ok) mem
    split
    next b₂ e eq =>
      cases eq
      refine ⟨pins, ?_⟩
      rintro base ⟨⟩
    next b₂ left right eq =>
      cases eq
      refine ⟨pins, fun base ok => ?_⟩
      obtain ⟨kl, hl⟩ := view rfl (List.Mem.head [right])
      obtain ⟨kr, hr⟩ := view rfl (mem_cons_of_mem left (mem_singleton_self right))
      obtain ⟨wf, entries⟩ := newBranchBase_spec
        (mergeBranchEntries_sorted (ordered _ _ hl) (ordered _ _ hr)) ok
      refine ⟨wf, fun m mem => ?_⟩
      rw [entries] at mem
      rcases mem_append.mp ((mergeBranchEntries_perm _ _).subset mem) with mem | mem
      · exact pins.known hl mem
      · exact pins.known hr mem
    next b₂ streams _ eq =>
      cases eq
      refine ⟨pins, fun base ok => ?_⟩
      cases streams with
      | nil =>
        obtain ⟨wf, entries⟩ := newBranchBase_spec List.Pairwise.nil ok
        refine ⟨wf, fun m mem => ?_⟩
        rw [entries] at mem
        cases mem
      | cons v vs =>
        obtain ⟨k, hv⟩ := view rfl (List.Mem.head vs)
        obtain ⟨wf, entries⟩ := newBranchBase_spec (ordered _ _ hv) ok
        refine ⟨wf, fun m mem => ?_⟩
        rw [entries] at mem
        exact pins.known hv mem

/-- What is installed: a well-formed candidate under a new id whose parent is held. -/
structure Installs (b : Branch) (c : BranchCandidate) : Prop where
  new : b.candidates.lookup c.id = none
  wf : c.Wf
  parent : ∀ {p}, c.parent = some p → b.candidates.lookup p.id = some p

theorem addCandidate_spec {request : CandidateRequest} (tracked : Tracked n) (pinned : b.Pinned)
    (tree : b.Tree []) (allow : Bool)
    (fresh : ∀ d, request.delta = some d → ∀ a ∈ d.added, ¬ Known n b a) :
    ∃ b₁, Pins n b b₁ ∧ ((b.addCandidate n request allow).1 = b₁ ∨
      ∃ c, Installs b₁ c ∧ (b.addCandidate n request allow).1 = b₁.install c) := by
  have same : ∃ b₁, Pins n b b₁ ∧ (b = b₁ ∨ ∃ c, Installs b₁ c ∧ b = b₁.install c) :=
    ⟨b, .refl n b, .inl rfl⟩
  unfold Branch.addCandidate
  split
  · exact same
  next delta hdelta =>
    have fresh := fresh delta hdelta
    split
    · exact same
    · split
      · exact same
      · exact same
      next sorted _ =>
        have batch := validateSorted_ok.mp sorted
        split
        · exact same
        · split
          · split <;> exact same
          next absent =>
            split
            · split
              · exact same
              · obtain ⟨pins, wf⟩ := snapshotBase_spec tracked pinned request.base
                cases hbase : b.snapshotBase n request.base with
                | mk b₁ r =>
                  rw [hbase] at pins wf
                  cases r with
                  | error e => exact ⟨b₁, pins, .inl rfl⟩
                  | ok base =>
                    dsimp only
                    split
                    · exact ⟨b₁, pins, .inl rfl⟩
                    next indexed ok =>
                      obtain ⟨wf, known⟩ := wf base rfl
                      obtain ⟨resolves, raw⟩ :=
                        indexDelta_spec wf.find wf.indexes.distinct batch ok
                      refine ⟨b₁, pins, .inr ⟨_, ⟨?_, ?_, ?_⟩, rfl⟩⟩
                      · rw [pins.candidates]
                        exact absent
                      · refine ⟨wf, resolves, fun a ha mem => ?_⟩
                        rw [raw] at ha
                        exact fresh a ha (known a mem)
                      · rintro p ⟨⟩
            · split
              · exact same
              · split
                · exact same
                next parent held =>
                  split
                  · exact same
                  · split
                    · exact same
                    next indexed ok =>
                      have wf := tree.wf held
                      obtain ⟨resolves, raw⟩ := indexDelta_spec wf.find wf.distinct batch ok
                      refine ⟨b, .refl n b, .inr ⟨_, ⟨?_, ?_, ?_⟩, rfl⟩⟩
                      · exact absent
                      · refine ⟨wf, resolves, fun a ha mem => ?_⟩
                        rw [raw] at ha
                        exact fresh a ha (.inl ⟨_, parent, held, mem⟩)
                      · rintro p ⟨⟩
                        rw [tree.named held]
                        exact held

theorem kids_install :
    id ∈ (b.install c).kids pid ↔ (∃ p, c.parent = some p ∧ p.id = pid ∧ id = c.id) ∨
        (id ∈ b.kids pid ∧ ∀ p, c.parent = some p → p.id = pid → id ≠ c.id) := by
  unfold Branch.install Branch.kids
  cases parent : c.parent with
  | none => simp
  | some p =>
    by_cases here : pid = p.id
    · subst here
      rw [lookup_insert]
      grind
    · rw [lookup_insert_ne here]
      grind

theorem Installs.tree (h : Installs b c) (t : b.Tree []) : (b.install c).Tree [] := by
  have lookup {id : Hash} {c' : BranchCandidate}
      (found : (b.install c).candidates.lookup id = some c') :
      (id = c.id ∧ c' = c) ∨ (id ≠ c.id ∧ b.candidates.lookup id = some c') := by
    by_cases here : id = c.id
    · subst here
      change (b.candidates.insert c.id c).lookup c.id = some c' at found
      rw [lookup_insert] at found
      cases found
      exact .inl ⟨rfl, rfl⟩
    · exact .inr ⟨here, (lookup_insert_ne here).symm.trans found⟩
  have old {id : Hash} {c' : BranchCandidate} (found : b.candidates.lookup id = some c') :
      (b.install c).candidates.lookup id = some c' := by
    have other : id ≠ c.id := by
      intro same
      rw [same, h.new] at found
      cases found
    exact (lookup_insert_ne other).trans found
  constructor
  · intro id c' found
    rcases lookup found with ⟨rfl, rfl⟩ | ⟨-, found⟩
    · rfl
    · exact t.named found
  · intro id c' found
    rcases lookup found with ⟨rfl, rfl⟩ | ⟨-, found⟩
    · exact h.wf
    · exact t.wf found
  · intro id c' p found parent
    left
    rcases lookup found with ⟨rfl, rfl⟩ | ⟨other, found⟩
    · exact ⟨old (h.parent parent), kids_install.mpr (.inl ⟨p, parent, rfl, rfl⟩)⟩
    · rcases t.up found parent with ⟨held, mem⟩ | none
      · exact ⟨old held, kids_install.mpr (.inr ⟨mem, fun _ _ _ => other⟩)⟩
      · cases none
  · intro id pid mem
    rcases kids_install.mp mem with ⟨p, parent, same, rfl⟩ | ⟨mem, -⟩
    · exact ⟨c, p, lookup_insert _, parent, same⟩
    · obtain ⟨c', p, found, parent, same⟩ := t.down mem
      exact ⟨c', p, old found, parent, same⟩

/-! ## Lineages of held candidates -/

namespace BranchCandidate

variable {a c d p : BranchCandidate}

theorem mem_lineage_self (c : BranchCandidate) : c ∈ c.lineage := by
  cases c <;> exact .head _

theorem mem_lineage_of_parent (parent : c.parent = some p) (mem : a ∈ p.lineage) :
    a ∈ c.lineage := by
  cases c with
  | root => cases parent
  | child =>
    cases parent
    exact .tail _ mem

theorem mem_lineage_cases (mem : a ∈ c.lineage) :
    a = c ∨ ∃ p, c.parent = some p ∧ a ∈ p.lineage := by
  cases c with
  | root => exact .inl (mem_singleton.mp mem)
  | child id seqno parent delta =>
    rcases mem_cons.mp mem with same | above
    · exact .inl same
    · exact .inr ⟨parent, rfl, above⟩

theorem mem_lineage_trans (mem : a ∈ c.lineage) (above : d ∈ a.lineage) : d ∈ c.lineage := by
  induction c with
  | root =>
    rw [mem_singleton.mp mem] at above
    exact above
  | child id seqno parent delta ih =>
    rcases mem_cons.mp mem with rfl | mem
    · exact above
    · exact .tail _ (ih mem)

theorem length_le_of_mem_lineage (mem : a ∈ c.lineage) : a.lineage.length ≤ c.lineage.length := by
  induction c with
  | root => rw [mem_singleton.mp mem]
  | child id seqno parent delta ih =>
    rcases mem_cons.mp mem with rfl | mem
    · exact le_refl _
    · exact Nat.le_succ_of_le (ih mem)

theorem not_mem_lineage_parent (parent : c.parent = some p) : c ∉ p.lineage := by
  intro mem
  have short := length_le_of_mem_lineage mem
  cases c with
  | root => cases parent
  | child =>
    cases parent
    rw [lineage, length_cons] at short
    omega

end BranchCandidate

namespace Branch.Tree

variable {b : Branch}

theorem lineage (t : b.Tree []) :
    ∀ {id : Hash}, b.candidates.lookup id = some c → ∀ a ∈ c.lineage,
      b.candidates.lookup a.id = some a := by
  induction c with
  | root id' seqno base delta =>
    intro id held a mem
    rw [mem_singleton.mp mem, t.named held]
    exact held
  | child id' seqno parent delta ih =>
    intro id held a mem
    rcases mem_cons.mp mem with rfl | mem
    · rw [t.named held]
      exact held
    · rcases t.up held rfl with ⟨above, -⟩ | none
      · exact ih above a mem
      · cases none

theorem eq_of_mem_lineage (t : b.Tree []) {a c' : BranchCandidate}
    (held : b.candidates.lookup id = some c) (held' : b.candidates.lookup id' = some c')
    (mem : a ∈ c.lineage) (same : a.id = id') : c' = a := by
  have found := t.lineage held a mem
  rw [same, held'] at found
  exact Option.some.inj found

theorem parent_of_kid (t : b.Tree []) {p : BranchCandidate}
    (held : b.candidates.lookup p.id = some p) (found : b.candidates.lookup id = some c)
    (mem : id ∈ b.kids p.id) : c.parent = some p := by
  obtain ⟨c', p', found', parent, same⟩ := t.down mem
  rw [found] at found'
  cases found'
  rcases t.up found parent with ⟨above, -⟩ | none
  · rw [same, held] at above
    cases above
    exact parent
  · cases none

end Branch.Tree

/-! ## Maps with fewer entries -/

section Restrict

variable {K V : Type} [DecidableEq K]

theorem lookup_eraseUnless (keep : K → Bool) (ks : List K) : ∀ (m : Map K V) (k : K),
    (ks.foldl (fun m k => if keep k then m else m.erase k) m).lookup k =
      if k ∈ ks ∧ keep k = false then none else m.lookup k := by
  induction ks with
  | nil =>
    intro m k
    simp
  | cons x xs ih =>
    intro m k
    rw [foldl_cons, ih]
    by_cases here : k = x
    · subst here
      cases stays : keep k with
      | true => simp
      | false => simp [lookup_erase]
    · cases stays : keep x with
      | true => simp [here]
      | false => simp [here, lookup_erase_ne here]

theorem lookup_restrict (m : Map K V) (keep : K → Bool) (k : K) :
    (Branch.restrict m keep).lookup k = if keep k then m.lookup k else none := by
  unfold Branch.restrict
  rw [lookup_eraseUnless]
  cases stays : keep k with
  | true => simp
  | false =>
    by_cases mem : k ∈ m.keys
    · simp [mem]
    · simp [mem, AList.lookup_eq_none.mpr (mt AList.mem_keys.mp mem)]

theorem lookup_eraseEach {T : Type} (key : T → K) (ts : List T) : ∀ (m : Map K V) (k : K),
    (ts.foldl (fun m t => m.erase (key t)) m).lookup k =
      if k ∈ ts.map key then none else m.lookup k := by
  induction ts with
  | nil =>
    intro m k
    simp
  | cons x xs ih =>
    intro m k
    rw [foldl_cons, ih]
    by_cases here : k = key x
    · subst here
      simp [lookup_erase]
    · simp [here, lookup_erase_ne here]

omit [DecidableEq K] in
theorem mem_values [DecidableEq K] {m : Map K V} {v : V} :
    v ∈ m.values ↔ ∃ k, m.lookup k = some v := by
  unfold Map.values
  simp only [mem_map]
  constructor
  · rintro ⟨⟨k, v⟩, mem, rfl⟩
    exact ⟨k, AList.mem_lookup_iff.mpr mem⟩
  · rintro ⟨k, found⟩
    exact ⟨⟨k, v⟩, AList.mem_lookup_iff.mp found, rfl⟩

end Restrict

/-! ## Retaining a tip -/

theorem mem_foldl_relink (nodes : List BranchCandidate) (children : Map Hash (List Hash)) :
    id ∈ ((nodes.foldl (fun children c =>
      match c.parent with
      | none => children
      | some parent =>
        children.insert parent.id (c.id :: ((children.lookup parent.id).getD []))) children
      ).lookup pid).getD [] ↔ id ∈ (children.lookup pid).getD [] ∨
        ∃ c ∈ nodes, c.id = id ∧ ∃ p, c.parent = some p ∧ p.id = pid := by
  induction nodes generalizing children with
  | nil => simp
  | cons c nodes ih =>
    rw [foldl_cons, ih]
    cases parent : c.parent with
    | none => simp [parent]
    | some p =>
      by_cases here : pid = p.id
      · subst here
        simp only [lookup_insert, Option.getD_some, mem_cons, exists_eq_or_imp,
          parent, Option.some.injEq, exists_eq_left', and_true]
        rw [or_assoc, or_left_comm, eq_comm (a := id)]
      · rw [lookup_insert_ne here]
        simp [parent, Ne.symm here]

theorem mem_relink (nodes : List BranchCandidate) :
    id ∈ ((Branch.relink nodes).lookup pid).getD [] ↔
      ∃ c ∈ nodes, c.id = id ∧ ∃ p, c.parent = some p ∧ p.id = pid :=
  (mem_foldl_relink nodes ∅).trans (by simp)

theorem keepDescendants_spec {start : List Hash} (fuel : Nat) :
    ∀ {waiting keep keep' : List Hash}, (∀ id ∈ waiting, id ∈ keep) →
    (∀ id ∈ keep, id ∈ start ∨ ∃ pid ∈ keep, id ∈ b.kids pid) →
    b.keepDescendants fuel waiting keep = some keep' → (∀ id ∈ keep, id ∈ keep') ∧
      ∀ id ∈ keep', id ∈ start ∨ ∃ pid ∈ keep', id ∈ b.kids pid := by
  induction fuel with
  | zero =>
    intro waiting keep keep' _ closed result
    cases waiting with
    | nil =>
      cases result
      exact ⟨fun _ mem => mem, closed⟩
    | cons => cases result
  | succ fuel ih =>
    intro waiting keep keep' known closed result
    cases waiting with
    | nil =>
      cases result
      exact ⟨fun _ mem => mem, closed⟩
    | cons id waiting =>
      have rest := ih ?_ ?_ result
      · exact ⟨fun id' mem => rest.1 id' (mem_append_right _ mem), rest.2⟩
      · intro id' mem
        rcases mem_append.mp mem with new | old
        · exact mem_append_left _ new
        · exact mem_append_right _ (known id' (.tail _ old))
      · intro id' mem
        rcases mem_append.mp mem with new | old
        · right
          refine ⟨id, mem_append_right _ (known id (.head _)), ?_⟩
          exact (mem_filter.mp new).1
        · rcases closed id' old with first | ⟨pid, hpid, kid⟩
          · exact .inl first
          · exact .inr ⟨pid, mem_append_right _ hpid, kid⟩

/-- A part of the tree that has every parent of what it keeps, with the children linked again. -/
theorem Branch.Tree.relink (t : b.Tree []) {keep : List Hash}
    (sources : Map (ShardIdent × SourceRef) (List InternalMessage))
    (parents : ∀ {id c p}, id ∈ keep → b.candidates.lookup id = some c → c.parent = some p →
      p.id ∈ keep) :
    let candidates := restrict b.candidates (keep.contains ·)
    Branch.Tree { b with candidates, sources, children := Branch.relink candidates.values } [] := by
  intro candidates
  have lookup {id : Hash} {c : BranchCandidate} :
      candidates.lookup id = some c ↔ id ∈ keep ∧ b.candidates.lookup id = some c := by
    rw [lookup_restrict]
    simp
  constructor
  · intro id c held
    exact t.named (lookup.mp held).2
  · intro id c held
    exact t.wf (lookup.mp held).2
  · intro id c p held parent
    left
    obtain ⟨kept, held'⟩ := lookup.mp held
    rcases t.up held' parent with ⟨above, -⟩ | none
    · refine ⟨lookup.mpr ⟨parents kept held' parent, above⟩, (mem_relink _).mpr ?_⟩
      exact ⟨c, mem_values.mpr ⟨id, held⟩, t.named held', p, parent, rfl⟩
    · cases none
  · intro id pid mem
    obtain ⟨c, hc, rfl, p, parent, same⟩ := (mem_relink _).mp mem
    obtain ⟨id, held⟩ := mem_values.mp hc
    have named := t.named (lookup.mp held).2
    exact ⟨c, p, named ▸ held, parent, same⟩

theorem retain_tree {tip : Option Hash} {r : Option BranchError}
    (t : b.Tree []) (result : b.retain fuel tip = some (b', r)) :
    b'.Tree [] ∧ ∀ key msgs, b'.sources.lookup key = some msgs →
      b.sources.lookup key = some msgs := by
  unfold Branch.retain at result
  split at result
  · cases result
    exact ⟨t, fun _ _ found => found⟩
  · split at result
    · cases result
      exact ⟨⟨nofun, nofun, nofun, nofun⟩, nofun⟩
    · split at result
      · cases result
        exact ⟨t, fun _ _ found => found⟩
      next tip held =>
        cases hkeep : b.keepDescendants fuel [tip.id] (tip.lineage.map (·.id)) with
        | none =>
          rw [hkeep] at result
          cases result
        | some keep =>
          rw [hkeep] at result
          cases result
          have first : ∀ id ∈ [tip.id], id ∈ tip.lineage.map (·.id) := by
            intro id mem
            rw [mem_singleton.mp mem]
            exact mem_map_of_mem tip.mem_lineage_self
          obtain ⟨grows, closed⟩ := keepDescendants_spec fuel first (fun _ mem => .inl mem) hkeep
          refine ⟨t.relink _ ?_, ?_⟩
          · intro id c p kept found parent
            rcases closed id kept with on | ⟨pid, hpid, kid⟩
            · obtain ⟨a, ha, same⟩ := mem_map.mp on
              rw [t.eq_of_mem_lineage held found ha same] at parent
              apply grows
              apply mem_map_of_mem
              exact BranchCandidate.mem_lineage_trans ha
                (BranchCandidate.mem_lineage_of_parent parent p.mem_lineage_self)
            · obtain ⟨c', p', found', parent', rfl⟩ := t.down kid
              rw [found] at found'
              cases found'
              rw [parent] at parent'
              cases parent'
              exact hpid
          · intro key msgs found
            rw [lookup_restrict] at found
            split at found
            · exact found
            · cases found

/-! ## Dropping a candidate -/

theorem kids_forget : id' ∈ (b.forget id).kids pid ↔ pid ≠ id ∧ id' ∈ b.kids pid := by
  unfold Branch.forget Branch.kids
  by_cases here : pid = id
  · subst here
    simp [lookup_erase]
  · simp [here]

theorem lookup_forget :
    (b.forget id).candidates.lookup id' = some c ↔ id' ≠ id ∧ b.candidates.lookup id' = some c := by
  unfold Branch.forget
  by_cases here : id' = id
  · subst here
    simp [lookup_erase]
  · simp [here]

/-- Take a node out of the children of its parent. -/
def Branch.unlink (b : Branch) (candidate : BranchCandidate) (id : Hash) : Branch :=
  match candidate.parent with
  | none => b
  | some parent =>
    match b.children.lookup parent.id with
    | none => b
    | some siblings =>
      { b with children := b.children.insert parent.id (siblings.filter (· ≠ id)) }

theorem unlink_same (b : Branch) (candidate : BranchCandidate) (id : Hash) :
    (b.unlink candidate id).candidates = b.candidates ∧
      (b.unlink candidate id).sources = b.sources := by
  unfold Branch.unlink
  split
  · exact ⟨rfl, rfl⟩
  · split <;> exact ⟨rfl, rfl⟩

theorem kids_unlink :
    id' ∈ (b.unlink candidate id).kids pid ↔
      id' ∈ b.kids pid ∧ ∀ p, candidate.parent = some p → p.id = pid → id' ≠ id := by
  unfold Branch.unlink Branch.kids
  split
  next none =>
    simp [none]
  next p parent =>
    simp only [parent, Option.some.injEq, forall_eq']
    split
    next none =>
      constructor
      · intro mem
        refine ⟨mem, ?_⟩
        rintro rfl
        rw [none] at mem
        cases mem
      · exact And.left
    next siblings found =>
      by_cases here : pid = p.id
      · subst here
        rw [lookup_insert, found]
        simp
      · rw [lookup_insert_ne here]
        simp [Ne.symm here]

theorem Branch.Tree.drop
    (t : b.Tree (id :: detached)) (held : b.candidates.lookup id = some candidate) :
    ((b.forget id).unlink candidate id).Tree (b.kids id ++ detached) := by
  have lookup {id' : Hash} {c : BranchCandidate} :
      ((b.forget id).unlink candidate id).candidates.lookup id' = some c ↔
        id' ≠ id ∧ b.candidates.lookup id' = some c := by
    rw [(unlink_same _ candidate id).1]
    exact lookup_forget
  constructor
  · intro id' c found
    exact t.named (lookup.mp found).2
  · intro id' c found
    exact t.wf (lookup.mp found).2
  · intro id' c p found parent
    obtain ⟨other, found⟩ := lookup.mp found
    rcases t.up found parent with ⟨above, kid⟩ | mem
    · by_cases gone : p.id = id
      · rw [gone] at kid
        exact .inr (mem_append_left _ kid)
      · left
        refine ⟨lookup.mpr ⟨gone, above⟩, kids_unlink.mpr ⟨kids_forget.mpr ⟨gone, kid⟩, ?_⟩⟩
        exact fun _ _ _ => other
    · rcases mem_cons.mp mem with same | mem
      · exact absurd same other
      · exact .inr (mem_append_right _ mem)
  · intro id' pid mem
    obtain ⟨mem, unlinked⟩ := kids_unlink.mp mem
    obtain ⟨c, p, found, parent, same⟩ := t.down (kids_forget.mp mem).2
    refine ⟨c, p, lookup.mpr ⟨?_, found⟩, parent, same⟩
    rintro rfl
    rw [held] at found
    cases found
    exact unlinked p parent same rfl

theorem dropTree_spec (fuel : Nat) : ∀ {waiting : List Hash} {b b' : Branch}, b.Tree waiting →
    Branch.dropTree fuel waiting b = some b' → b'.Tree [] ∧ b'.sources = b.sources := by
  induction fuel with
  | zero =>
    intro waiting b b' t result
    cases waiting with
    | nil =>
      cases result
      exact ⟨t, rfl⟩
    | cons => cases result
  | succ fuel ih =>
    intro waiting b b' t result
    cases waiting with
    | nil =>
      cases result
      exact ⟨t, rfl⟩
    | cons id waiting =>
      unfold Branch.dropTree at result
      split at result
      next absent =>
        refine ih ⟨t.named, t.wf, ?_, t.down⟩ result
        intro id' c p found parent
        rcases t.up found parent with above | mem
        · exact .inl above
        · rcases mem_cons.mp mem with rfl | mem
          · rw [absent] at found
            cases found
          · exact .inr mem
      next candidate held =>
        have rest := ih (t.drop held) result
        exact ⟨rest.1, rest.2.trans (unlink_same _ candidate id).2⟩

theorem dropCandidate_tree (t : b.Tree [])
    (result : b.dropCandidate fuel id = some b') : b'.Tree [] ∧ b'.sources = b.sources := by
  unfold Branch.dropCandidate at result
  split at result
  · cases result
    exact ⟨t, rfl⟩
  · refine dropTree_spec fuel ⟨t.named, t.wf, ?_, t.down⟩ result
    intro id' c p found parent
    rcases t.up found parent with above | none
    · exact .inl above
    · cases none

end Gton.MsgPool
