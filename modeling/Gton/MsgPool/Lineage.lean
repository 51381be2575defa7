import Gton.MsgPool.Branch
import Gton.MsgPool.Ledger

/-!
# Lineages

The queue of a candidate is the base with the deltas from the root to it applied. Admission
decides presence through three maps walked up the lineage; a cut decides it by message identity.
Both are that queue.
-/

namespace Gton.MsgPool

open Gton.Shard Gton.Lib.Fallible
open Gton.Lib.Merge (Heap)
open List

variable {K : Type} [DecidableEq K] {proj : InternalMessage → K}

/-! ## Maps that describe a set -/

/-- The map finds the messages of the set by name; no two of them share one. -/
def Describes (map : Map K InternalMessage) (proj : InternalMessage → K)
    (msgs : Set InternalMessage) : Prop :=
  ∀ k m, map.lookup k = some m ↔ m ∈ msgs ∧ proj m = k

namespace Describes

variable {map : Map K InternalMessage} {msgs : Set InternalMessage} {m m' : InternalMessage}

theorem empty : Describes (∅ : Map K InternalMessage) proj ∅ := by
  intro k m
  simp

section

variable (h : Describes map proj msgs)
include h

theorem unique (hm : m ∈ msgs) (hm' : m' ∈ msgs) (same : proj m = proj m') : m = m' := by
  have first := (h (proj m') m).mpr ⟨hm, same⟩
  have second := (h (proj m') m').mpr ⟨hm', rfl⟩
  rw [first] at second
  exact Option.some.inj second

theorem congr {msgs' : Set InternalMessage} (same : ∀ m, m ∈ msgs ↔ m ∈ msgs') :
    Describes map proj msgs' := by
  intro k m
  rw [h k m, same]

theorem isSome {k : K} : (map.lookup k).isSome = true ↔ ∃ m ∈ msgs, proj m = k := by
  rw [Option.isSome_iff_exists]
  exact exists_congr fun m => h k m

theorem eq_none {k : K} : map.lookup k = none ↔ ∀ m ∈ msgs, proj m ≠ k := by
  rw [← not_iff_not, ← ne_eq, ← Option.isSome_iff_ne_none, h.isSome]
  simp

theorem insert (new : ∀ m' ∈ msgs, proj m' ≠ proj m) :
    Describes (map.insert (proj m) m) proj {m' | m' ∈ msgs ∨ m' = m} := by
  intro k m'
  by_cases here : k = proj m
  · subst here
    rw [AList.lookup_insert]
    constructor
    · rintro ⟨⟩
      exact ⟨.inr rfl, rfl⟩
    · rintro ⟨old | rfl, same⟩
      · exact absurd same (new m' old)
      · rfl
  · rw [AList.lookup_insert_ne here, h k m']
    constructor
    · rintro ⟨old, same⟩
      exact ⟨.inl old, same⟩
    · rintro ⟨old | rfl, same⟩
      · exact ⟨old, same⟩
      · exact absurd same.symm here

theorem mem_values : m ∈ map.values ↔ m ∈ msgs := by
  constructor
  · intro mem
    obtain ⟨⟨k, v⟩, hk, rfl⟩ := mem_map.mp mem
    exact ((h k v).mp (AList.mem_lookup_iff.mpr hk)).1
  · intro mem
    have found := (h (proj m) m).mpr ⟨mem, rfl⟩
    exact mem_map.mpr ⟨⟨proj m, m⟩, AList.mem_lookup_iff.mp found, rfl⟩

end

end Describes

/-- All three names tell the messages of the set apart. -/
structure Distinct (msgs : Set InternalMessage) : Prop where
  key : ∀ m ∈ msgs, ∀ m' ∈ msgs, m.key = m'.key → m = m'
  env : ∀ m ∈ msgs, ∀ m' ∈ msgs, m.envHash = m'.envHash → m = m'
  order : ∀ m ∈ msgs, ∀ m' ∈ msgs, m.order = m'.order → m = m'

/-- Three maps, one for each name. -/
structure DescribesAll (byKey : Map QueueKey InternalMessage) (byEnv : Map Hash InternalMessage)
    (byOrder : Map (Nat ×ₗ Nat) InternalMessage) (msgs : Set InternalMessage) : Prop where
  key : Describes byKey (·.key) msgs
  env : Describes byEnv (·.envHash) msgs
  order : Describes byOrder (·.order) msgs

namespace DescribesAll

variable {byKey : Map QueueKey InternalMessage} {byEnv : Map Hash InternalMessage}
  {byOrder : Map (Nat ×ₗ Nat) InternalMessage} {msgs msgs' : Set InternalMessage}

theorem empty : DescribesAll ∅ ∅ ∅ ∅ := ⟨.empty, .empty, .empty⟩

section

variable (h : DescribesAll byKey byEnv byOrder msgs)
include h

theorem distinct : Distinct msgs where
  key _ hm _ hm' same := h.key.unique hm hm' same
  env _ hm _ hm' same := h.env.unique hm hm' same
  order _ hm _ hm' same := h.order.unique hm hm' same

theorem congr (same : ∀ m, m ∈ msgs ↔ m ∈ msgs') : DescribesAll byKey byEnv byOrder msgs' :=
  ⟨h.key.congr same, h.env.congr same, h.order.congr same⟩

theorem insert {m : InternalMessage}
    (new : ∀ m' ∈ msgs, m'.key ≠ m.key ∧ m'.envHash ≠ m.envHash ∧ m'.order ≠ m.order) :
    DescribesAll (byKey.insert m.key m) (byEnv.insert m.envHash m) (byOrder.insert m.order m)
      {m' | m' ∈ msgs ∨ m' = m} :=
  ⟨h.key.insert fun m' mem => (new m' mem).1, h.env.insert fun m' mem => (new m' mem).2.1,
    h.order.insert fun m' mem => (new m' mem).2.2⟩

end

end DescribesAll

/-! ## Well-formed candidates -/

structure BranchBase.Wf (base : BranchBase) : Prop where
  ordered : Ordered base.entries
  indexes : DescribesAll base.byKey base.byEnv base.byOrder {m | m ∈ base.entries}

/-- The indexes of a delta say what it does to the queue. -/
structure Resolves (queue : Set InternalMessage) (d : BranchDelta) : Prop where
  added : DescribesAll d.addedKey d.addedEnv d.addedOrder {m | m ∈ d.raw.added}
  removed : DescribesAll d.removedKey d.removedEnv d.removedOrd
    {m | m ∈ queue ∧ d.raw.removes m}
  joins : ∀ a ∈ d.raw.added, ∀ m ∈ queue, ¬ d.raw.removes m →
    m.key ≠ a.key ∧ m.envHash ≠ a.envHash ∧ m.order ≠ a.order
  ordered : Ordered d.raw.added

namespace BranchCandidate

/-- The queue: the deltas from the root to the candidate applied to the base. -/
def queue : BranchCandidate → Set InternalMessage
  | root _ _ base delta => delta.raw.apply {m | m ∈ base.entries}
  | child _ _ parent delta => delta.raw.apply parent.queue

/-- Every message of the base and of a delta of the lineage. -/
def objects : BranchCandidate → List InternalMessage
  | root _ _ base delta => base.entries ++ delta.raw.added
  | child _ _ parent delta => parent.objects ++ delta.raw.added

/-- Every delta was resolved against the queue before it, and its additions are new objects. -/
def Wf : BranchCandidate → Prop
  | root _ _ base delta => base.Wf ∧ Resolves {m | m ∈ base.entries} delta ∧
    ∀ a ∈ delta.raw.added, a ∉ base.entries
  | child _ _ parent delta => parent.Wf ∧ Resolves parent.queue delta ∧
    ∀ a ∈ delta.raw.added, a ∉ parent.objects

end BranchCandidate

theorem Resolves.congr {queue queue' : Set InternalMessage} {d : BranchDelta}
    (h : Resolves queue d) (same : ∀ m, m ∈ queue ↔ m ∈ queue') : Resolves queue' d where
  added := h.added
  removed := h.removed.congr fun m => by simp [same]
  joins a ha m hm := h.joins a ha m ((same m).mpr hm)
  ordered := h.ordered

theorem Resolves.distinct {queue : Set InternalMessage} {d : BranchDelta} (h : Resolves queue d)
    (distinct : Distinct queue) : Distinct (d.raw.apply queue) := by
  have added := h.added.distinct
  constructor
  · rintro m (⟨hm, kept⟩ | hm) m' (⟨hm', kept'⟩ | hm') same
    · exact distinct.key m hm m' hm' same
    · exact absurd same (h.joins m' hm' m hm kept).1
    · exact absurd same.symm (h.joins m hm m' hm' kept').1
    · exact added.key m hm m' hm' same
  · rintro m (⟨hm, kept⟩ | hm) m' (⟨hm', kept'⟩ | hm') same
    · exact distinct.env m hm m' hm' same
    · exact absurd same (h.joins m' hm' m hm kept).2.1
    · exact absurd same.symm (h.joins m hm m' hm' kept').2.1
    · exact added.env m hm m' hm' same
  · rintro m (⟨hm, kept⟩ | hm) m' (⟨hm', kept'⟩ | hm') same
    · exact distinct.order m hm m' hm' same
    · exact absurd same (h.joins m' hm' m hm kept).2.2
    · exact absurd same.symm (h.joins m hm m' hm' kept').2.2
    · exact added.order m hm m' hm' same

theorem BranchCandidate.Wf.distinct {c : BranchCandidate} (h : c.Wf) : Distinct c.queue := by
  induction c with
  | root _ _ base delta => exact h.2.1.distinct h.1.indexes.distinct
  | child _ _ parent delta ih => exact h.2.1.distinct (ih h.1)

/-! ## Lookups -/

/-- The lookup finds the messages of the queue by name. -/
def Finds (look : K → Option InternalMessage) (proj : InternalMessage → K)
    (queue : Set InternalMessage) : Prop :=
  ∀ k m, look k = some m ↔ m ∈ queue ∧ proj m = k

omit [DecidableEq K] in
theorem Finds.unique {look : K → Option InternalMessage} {queue : Set InternalMessage}
    (h : Finds look proj queue) {m m' : InternalMessage} (hm : m ∈ queue) (hm' : m' ∈ queue)
    (same : proj m = proj m') : m = m' := by
  have first := (h (proj m') m).mpr ⟨hm, same⟩
  have second := (h (proj m') m').mpr ⟨hm', rfl⟩
  rw [first] at second
  exact Option.some.inj second

/-- One step of the walk: the newest delta decides, or else what was before it. -/
theorem Finds.step {look : K → Option InternalMessage} {queue : Set InternalMessage}
    {d : InternalsDelta} {added removed : Map K InternalMessage} (before : Finds look proj queue)
    (hadded : Describes added proj {m | m ∈ d.added})
    (hremoved : Describes removed proj {m | m ∈ queue ∧ d.removes m})
    (joins : ∀ a ∈ d.added, ∀ m ∈ queue, ¬ d.removes m → proj m ≠ proj a) :
    Finds (fun k => match added.lookup k with
      | some m => some m
      | none => if (removed.lookup k).isSome then none else look k) proj (d.apply queue) := by
  intro k m
  dsimp only
  cases found : added.lookup k with
  | some a =>
    obtain ⟨ha, rfl⟩ := (hadded k a).mp found
    constructor
    · rintro ⟨⟩
      exact ⟨.inr ha, rfl⟩
    · rintro ⟨⟨hm, kept⟩ | hm, same⟩
      · exact absurd same (joins a ha m hm kept)
      · rw [hadded.unique hm ha same]
  | none =>
    have absent := hadded.eq_none.mp found
    dsimp only
    split
    next gone =>
      obtain ⟨r, ⟨hr, removes⟩, rfl⟩ := hremoved.isSome.mp gone
      simp only [reduceCtorEq, false_iff, not_and]
      rintro (⟨hm, kept⟩ | hm) same
      · rw [before.unique hm hr same] at kept
        exact kept removes
      · exact absent m hm same
    next stays =>
      rw [before k m]
      constructor
      · rintro ⟨hm, same⟩
        refine ⟨.inl ⟨hm, fun removes => stays ?_⟩, same⟩
        exact hremoved.isSome.mpr ⟨m, ⟨hm, removes⟩, same⟩
      · rintro ⟨⟨hm, -⟩ | hm, same⟩
        · exact ⟨hm, same⟩
        · exact absurd same (absent m hm)

theorem BranchCandidate.Wf.finds {added removed : BranchDelta → Map K InternalMessage}
    {based : BranchBase → Map K InternalMessage}
    (hbased : ∀ base : BranchBase, base.Wf → Describes (based base) proj {m | m ∈ base.entries})
    (hadded : ∀ queue d, Resolves queue d → Describes (added d) proj {m | m ∈ d.raw.added})
    (hremoved : ∀ queue d, Resolves queue d →
      Describes (removed d) proj {m | m ∈ queue ∧ d.raw.removes m})
    (joins : ∀ queue d, Resolves queue d → ∀ a ∈ d.raw.added, ∀ m ∈ queue, ¬ d.raw.removes m →
      proj m ≠ proj a) {c : BranchCandidate} (h : c.Wf) :
    Finds (fun k => c.lookup added removed based k) proj c.queue := by
  induction c with
  | root _ _ base delta =>
    exact Finds.step (hbased base h.1) (hadded _ delta h.2.1) (hremoved _ delta h.2.1)
      (joins _ delta h.2.1)
  | child _ _ parent delta ih =>
    exact Finds.step (ih h.1) (hadded _ delta h.2.1) (hremoved _ delta h.2.1)
      (joins _ delta h.2.1)

/-- All three lookups find what is queued. -/
structure Lookups.Find (look : Lookups) (queue : Set InternalMessage) : Prop where
  key : Finds look.key (·.key) queue
  env : Finds look.env (·.envHash) queue
  order : Finds look.order (·.order) queue

theorem BranchBase.Wf.find {base : BranchBase} (h : base.Wf) :
    base.lookups.Find {m | m ∈ base.entries} :=
  ⟨h.indexes.key, h.indexes.env, h.indexes.order⟩

theorem BranchCandidate.Wf.find {c : BranchCandidate} (h : c.Wf) : c.lookups.Find c.queue where
  key := h.finds (fun _ w => w.indexes.key) (fun _ _ r => r.added.key) (fun _ _ r => r.removed.key)
    fun _ _ r a ha m hm kept => (r.joins a ha m hm kept).1
  env := h.finds (fun _ w => w.indexes.env) (fun _ _ r => r.added.env) (fun _ _ r => r.removed.env)
    fun _ _ r a ha m hm kept => (r.joins a ha m hm kept).2.1
  order := h.finds (fun _ w => w.indexes.order) (fun _ _ r => r.added.order)
    (fun _ _ r => r.removed.order) fun _ _ r a ha m hm kept => (r.joins a ha m hm kept).2.2

/-! ## Indexing a delta -/

/-- The removals recorded so far are these messages of the queue. -/
structure Removing (queue removed : Set InternalMessage) (d : BranchDelta) : Prop where
  subset : ∀ m ∈ removed, m ∈ queue
  indexes : DescribesAll d.removedKey d.removedEnv d.removedOrd removed

omit [DecidableEq K] in
theorem indexRemovals_spec {look : K → Option InternalMessage} {queue : Set InternalMessage}
    (finds : Finds look proj queue) (distinct : Distinct queue) {absent : BranchError}
    (ks : List K) : ∀ {removed : Set InternalMessage} {d d' : BranchDelta},
    Removing queue removed d → indexRemovals look absent ks d = .ok d' →
    Removing queue {m | m ∈ removed ∨ (m ∈ queue ∧ proj m ∈ ks)} d' ∧ d'.raw = d.raw ∧
      d'.addedKey = d.addedKey ∧ d'.addedEnv = d.addedEnv ∧ d'.addedOrder = d.addedOrder := by
  induction ks with
  | nil =>
    rintro removed d d' h ⟨⟩
    refine ⟨⟨?_, h.indexes.congr ?_⟩, rfl, rfl, rfl, rfl⟩
    · rintro m (hm | ⟨-, none⟩)
      · exact h.subset m hm
      · cases none
    · simp
  | cons k ks ih =>
    intro removed d d' h ok
    unfold indexRemovals at ok
    split at ok
    · cases ok
    next m found =>
      obtain ⟨hm, rfl⟩ := (finds k m).mp found
      obtain ⟨new, ok⟩ := guard_eq_ok.mp ok
      have fresh : m ∉ removed := fun mem => new (h.indexes.key.isSome.mpr ⟨m, mem, rfl⟩)
      have apart (m' : InternalMessage) (mem : m' ∈ removed) :
          m'.key ≠ m.key ∧ m'.envHash ≠ m.envHash ∧ m'.order ≠ m.order := by
        have hm' := h.subset m' mem
        have ne : m' ≠ m := fun eq => fresh (eq ▸ mem)
        exact ⟨fun eq => ne (distinct.key m' hm' m hm eq),
          fun eq => ne (distinct.env m' hm' m hm eq),
          fun eq => ne (distinct.order m' hm' m hm eq)⟩
      have step : Removing queue {m' | m' ∈ removed ∨ m' = m} (d.recordRemoval m) := by
        refine ⟨?_, h.indexes.insert apart⟩
        rintro m' (mem | rfl)
        · exact h.subset m' mem
        · exact hm
      obtain ⟨rest, raw⟩ := ih step ok
      refine ⟨⟨?_, rest.indexes.congr ?_⟩, raw⟩
      · rintro m' (mem | ⟨mem, -⟩)
        · exact h.subset m' mem
        · exact mem
      · intro m'
        simp only [Set.mem_ofPred_eq, mem_cons]
        constructor
        · rintro ((mem | rfl) | ⟨mem, named⟩)
          · exact .inl mem
          · exact .inr ⟨hm, .inl rfl⟩
          · exact .inr ⟨mem, .inr named⟩
        · rintro (mem | ⟨mem, same | named⟩)
          · exact .inl (.inl mem)
          · have again := (finds (proj m) m').mpr ⟨mem, same⟩
            rw [found] at again
            cases again
            exact .inl (.inr rfl)
          · exact .inr ⟨mem, named⟩

theorem Removing.free {queue removed : Set InternalMessage} {d : BranchDelta}
    {look : K → Option InternalMessage} {map : Map K InternalMessage}
    (h : Removing queue removed d) (finds : Finds look proj queue)
    (described : Describes map proj removed) {k : K} {m : InternalMessage} (hm : m ∈ queue)
    (kept : m ∉ removed) (same : proj m = k) : look k = some m ∧ map.lookup k = none := by
  refine ⟨(finds k m).mpr ⟨hm, same⟩, described.eq_none.mpr fun r hr eq => kept ?_⟩
  rw [finds.unique hm (h.subset r hr) (same.trans eq.symm)]
  exact hr

theorem indexAdditions_spec {look : Lookups} {queue removed : Set InternalMessage}
    (find : look.Find queue) (ms : List InternalMessage) :
    ∀ {seen : Set InternalMessage} {d d' : BranchDelta}, Removing queue removed d →
    DescribesAll d.addedKey d.addedEnv d.addedOrder seen → Ordered ms →
    (ms.map (·.key)).Nodup → (ms.map (·.envHash)).Nodup →
    (∀ a ∈ ms, ∀ m ∈ seen, m.key ≠ a.key ∧ m.envHash ≠ a.envHash ∧ m.order ≠ a.order) →
    indexAdditions look ms d = .ok d' →
    Removing queue removed d' ∧ d'.raw = d.raw ∧
      DescribesAll d'.addedKey d'.addedEnv d'.addedOrder {m | m ∈ seen ∨ m ∈ ms} ∧
      ∀ a ∈ ms, ∀ m ∈ queue, m ∉ removed →
        m.key ≠ a.key ∧ m.envHash ≠ a.envHash ∧ m.order ≠ a.order := by
  induction ms with
  | nil =>
    rintro seen d d' h added - - - - ⟨⟩
    exact ⟨h, rfl, added.congr (by simp), by simp⟩
  | cons a ms ih =>
    intro seen d d' h added ordered keys envelopes new ok
    unfold indexAdditions at ok
    obtain ⟨noKey, ok⟩ := guard_eq_ok.mp ok
    obtain ⟨noEnv, ok⟩ := guard_eq_ok.mp ok
    obtain ⟨noOrder, ok⟩ := guard_eq_ok.mp ok
    obtain ⟨below, ordered⟩ := pairwise_cons.mp ordered
    obtain ⟨firstKey, keys⟩ := nodup_cons.mp keys
    obtain ⟨firstEnvelope, envelopes⟩ := nodup_cons.mp envelopes
    have later (b : InternalMessage) (mem : b ∈ ms) :
        a.key ≠ b.key ∧ a.envHash ≠ b.envHash ∧ a.order ≠ b.order :=
      ⟨fun eq => firstKey (mem_map.mpr ⟨b, mem, eq.symm⟩),
        fun eq => firstEnvelope (mem_map.mpr ⟨b, mem, eq.symm⟩),
        ne_of_lt (below b mem)⟩
    have new' (b : InternalMessage) (mem : b ∈ ms) (m : InternalMessage)
        (hm : m ∈ {m | m ∈ seen ∨ m = a}) :
        m.key ≠ b.key ∧ m.envHash ≠ b.envHash ∧ m.order ≠ b.order := by
      rcases hm with old | rfl
      · exact new b (.tail _ mem) m old
      · exact later b mem
    obtain ⟨h', raw, added', joins⟩ := ih (d := { d with
        addedKey := d.addedKey.insert a.key a
        addedEnv := d.addedEnv.insert a.envHash a
        addedOrder := d.addedOrder.insert a.order a })
      ⟨h.subset, h.indexes⟩ (added.insert (new a (.head _))) ordered keys envelopes new' ok
    refine ⟨h', raw, added'.congr ?_, ?_⟩
    · intro m
      simp only [Set.mem_ofPred_eq, mem_cons]
      tauto
    · intro b mem m hm kept
      rcases mem_cons.mp mem with rfl | mem
      · refine ⟨fun same => noKey ?_, fun same => noEnv ?_, fun same => noOrder ?_⟩
        · obtain ⟨found, free⟩ := h.free find.key h.indexes.key hm kept same
          rw [found, Option.any_some, same, free]
          rfl
        · obtain ⟨found, free⟩ := h.free find.env h.indexes.env hm kept same
          rw [found, Option.any_some, same, free]
          rfl
        · obtain ⟨found, free⟩ := h.free find.order h.indexes.order hm kept same
          simp [found, free]
      · exact joins b mem m hm kept

theorem indexDelta_spec {look : Lookups} {queue : Set InternalMessage} {owner : ShardIdent}
    {raw : InternalsDelta} {d : BranchDelta} (find : look.Find queue) (distinct : Distinct queue)
    (batch : Batch owner raw.added) (ok : indexDelta look raw = .ok d) :
    Resolves queue d ∧ d.raw = raw := by
  unfold indexDelta at ok
  dsimp only [bind, Except.bind] at ok
  split at ok
  · cases ok
  next d₁ ok₁ =>
    split at ok
    · cases ok
    next d₂ ok₂ =>
      have start : Removing queue ∅ ⟨raw, ∅, ∅, ∅, ∅, ∅, ∅⟩ := ⟨by simp, .empty⟩
      obtain ⟨h₁, raw₁, key₁, env₁, order₁⟩ :=
        indexRemovals_spec find.key distinct raw.removedKeys start ok₁
      obtain ⟨h₂, raw₂, key₂, env₂, order₂⟩ :=
        indexRemovals_spec find.env distinct raw.removedEnvHashes h₁ ok₂
      have none : DescribesAll d₂.addedKey d₂.addedEnv d₂.addedOrder ∅ := by
        rw [key₂, env₂, order₂, key₁, env₁, order₁]
        exact .empty
      obtain ⟨h₃, raw₃, added, joins⟩ := indexAdditions_spec find raw.added h₂ none batch.ordered
        batch.keys batch.envelopes (by simp) ok
      have same : d.raw = raw := raw₃.trans (raw₂.trans raw₁)
      have removed (m : InternalMessage) :
          m ∈ {m | m ∈ {m | m ∈ (∅ : Set InternalMessage) ∨ m ∈ queue ∧ m.key ∈ raw.removedKeys} ∨
            m ∈ queue ∧ m.envHash ∈ raw.removedEnvHashes} ↔ m ∈ queue ∧ raw.removes m := by
        simp only [Set.mem_ofPred_eq, Set.mem_empty_iff_false, false_or, InternalsDelta.removes]
        tauto
      refine ⟨⟨?_, ?_, ?_, ?_⟩, same⟩
      · rw [same]
        exact added.congr (by simp)
      · rw [same]
        exact h₃.indexes.congr removed
      · rw [same]
        exact fun a ha m hm kept => joins a ha m hm fun mem => kept ((removed m).mp mem).2
      · rw [same]
        exact batch.ordered

/-! ## Bases -/

theorem indexBase_spec (ms : List InternalMessage) : ∀ {seen : Set InternalMessage}
    {base base' : BranchBase}, DescribesAll base.byKey base.byEnv base.byOrder seen →
    indexBase ms base = .ok base' →
    DescribesAll base'.byKey base'.byEnv base'.byOrder {m | m ∈ seen ∨ m ∈ ms} ∧
      (ms.map (·.order)).Nodup ∧ (∀ m ∈ ms, ∀ m' ∈ seen, m'.order ≠ m.order) ∧
      base'.entries = base.entries := by
  induction ms with
  | nil =>
    rintro seen base base' h ⟨⟩
    exact ⟨h.congr (by simp), .nil, by simp, rfl⟩
  | cons m ms ih =>
    intro seen base base' h ok
    unfold indexBase at ok
    obtain ⟨new, ok⟩ := guard_eq_ok.mp ok
    simp only [not_or, Bool.not_eq_true, Option.isSome_eq_false_iff,
      Option.isNone_iff_eq_none] at new
    have apart (m' : InternalMessage) (mem : m' ∈ seen) :
        m'.key ≠ m.key ∧ m'.envHash ≠ m.envHash ∧ m'.order ≠ m.order :=
      ⟨h.key.eq_none.mp new.1 m' mem, h.env.eq_none.mp new.2.1 m' mem,
        h.order.eq_none.mp new.2.2 m' mem⟩
    obtain ⟨rest, nodup, later, entries⟩ := ih (h.insert apart) ok
    refine ⟨rest.congr ?_, nodup_cons.mpr ⟨?_, nodup⟩, ?_, entries⟩
    · intro m'
      simp only [Set.mem_ofPred_eq, mem_cons]
      tauto
    · intro mem
      obtain ⟨m', hm', same⟩ := mem_map.mp mem
      exact later m' hm' m (.inr rfl) same.symm
    · intro m' mem
      rcases mem_cons.mp mem with rfl | mem
      · exact fun m'' hm'' => (apart m'' hm'').2.2
      · exact fun m'' hm'' => later m' mem m'' (.inl hm'')

theorem newBranchBase_spec {sources : List CandidateSource} {entries : List InternalMessage}
    {base : BranchBase} (sorted : entries.Pairwise (·.order ≤ ·.order))
    (ok : newBranchBase sources entries = .ok base) : base.Wf ∧ base.entries = entries := by
  let start : BranchBase := ⟨sources, entries, ∅, ∅, ∅⟩
  have start : DescribesAll start.byKey start.byEnv start.byOrder ∅ := .empty
  obtain ⟨indexes, nodup, -, same⟩ := indexBase_spec entries start ok
  change base.entries = entries at same
  refine ⟨⟨?_, ?_⟩, same⟩
  · rw [same]
    have distinct := pairwise_map.mp nodup
    exact (sorted.and distinct).imp fun both => lt_of_le_of_ne both.1 both.2
  · rw [same]
    exact indexes.congr (by simp)

theorem mergeBranchEntries_perm (left right : List InternalMessage) :
    (mergeBranchEntries left right).Perm (left ++ right) := by
  fun_induction mergeBranchEntries left right with
  | case1 => simp
  | case2 => simp
  | case3 l ls r rs gt ih => exact (ih.cons r).trans perm_middle.symm
  | case4 l ls r rs le ih => exact ih.cons l

theorem mergeBranchEntries_sorted {left right : List InternalMessage}
    (hl : left.Pairwise (·.order ≤ ·.order)) (hr : right.Pairwise (·.order ≤ ·.order)) :
    (mergeBranchEntries left right).Pairwise (·.order ≤ ·.order) := by
  fun_induction mergeBranchEntries left right with
  | case1 => exact hr
  | case2 => exact hl
  | case3 l ls r rs gt ih =>
    obtain ⟨below, hr⟩ := pairwise_cons.mp hr
    have lt := compareLtHash_gt.mp gt
    refine pairwise_cons.mpr ⟨?_, ih hl hr⟩
    intro m mem
    rcases mem_append.mp ((mergeBranchEntries_perm _ _).subset mem) with mem | mem
    · rcases mem_cons.mp mem with rfl | mem
      · exact le_of_lt lt
      · exact le_trans (le_of_lt lt) ((pairwise_cons.mp hl).1 m mem)
    · exact below m mem
  | case4 l ls r rs le ih =>
    obtain ⟨below, hl⟩ := pairwise_cons.mp hl
    have le : l.order ≤ r.order := not_lt.mp (mt compareLtHash_gt.mpr le)
    refine pairwise_cons.mpr ⟨?_, ih hl hr⟩
    intro m mem
    rcases mem_append.mp ((mergeBranchEntries_perm _ _).subset mem) with mem | mem
    · exact below m mem
    · rcases mem_cons.mp mem with rfl | mem
      · exact le
      · exact le_trans le ((pairwise_cons.mp hr).1 m mem)

end Gton.MsgPool
