import Gton.Collator.ShardTransitions
import Gton.Lib.Sorted

/-!
# The plan of a batch

Which transitions a batch of tips is planned as: each linear or merge tip alone, and the two tips
of each split parent together. The order of the tips plays no part in it.
-/

namespace Gton.Collator

open Gton.Shard
open Gton.Lib.Bits
open Gton.Lib.Fallible
open Gton.Lib.Sorted
open List

/-! ## Sorting -/

section Sorting

variable {α : Type} {key : α → ShardRegistryKey} {items items' : List α}

theorem perm_sortByKey : (sortByKey key items).Perm items := perm_insertionSort _ _

theorem mem_sortByKey {x : α} : x ∈ sortByKey key items ↔ x ∈ items := perm_sortByKey.mem_iff

theorem sortByKey_eq_of_perm (same : items.Perm items') (distinct : (items.map key).Nodup) :
    sortByKey key items = sortByKey key items' :=
  insertionSort_eq_of_perm ShardRegistryKey.cmp key same fun _ hx _ hy =>
    inj_on_of_nodup_map distinct hx hy

theorem pairwise_sortByKey :
    (sortByKey key items).Pairwise fun x y =>
      (ShardRegistryKey.cmp (key x) (key y)).isLE = true :=
  pairwise_insertionSort _ _

end Sorting

variable {item second first : DecodedShardTop} {key : ShardRegistryKey}
  {items : List DecodedShardTop}

/-! ## The plan while it is made -/

namespace DecodedShardTop

/-- The shard that a tip splits. -/
def parentKey (item : DecodedShardTop) : Option ShardRegistryKey :=
  match item.kind, item.predecessor with
  | .split, parent :: _ => some (shardTopKey parent)
  | _, _ => none

theorem Sound.parentKey_eq_none (sound : item.Sound) :
    item.parentKey = none ↔ item.kind ≠ .split := by
  unfold parentKey
  cases kind : item.kind with
  | linear | merge => simp
  | split =>
    obtain ⟨parent, single, -⟩ := sound.split kind
    simp [single]

theorem Sound.parentKey_eq_some (sound : item.Sound) (h : item.parentKey = some key) :
    item.kind = .split ∧ ∃ parent, item.predecessor = [parent] ∧ shardTopKey parent = key := by
  have kind : item.kind = .split := by
    by_contra other
    rw [sound.parentKey_eq_none.mpr other] at h
    cases h
  obtain ⟨parent, single, -⟩ := sound.split kind
  refine ⟨kind, parent, single, ?_⟩
  unfold parentKey at h
  rw [kind, single] at h
  exact Option.some.inj h

theorem Sound.parent_workchain (sound : item.Sound) (h : item.parentKey = some key) :
    item.target.workchain = key.workchain := by
  obtain ⟨kind, p, single, rfl⟩ := sound.parentKey_eq_some h
  obtain ⟨p', single', workchain, -⟩ := sound.split kind
  rw [single] at single'
  cases single'
  exact workchain.symm

end DecodedShardTop

/-- The tips of a split parent. -/
def tipsOf (items : List DecodedShardTop) (key : ShardRegistryKey) : List DecodedShardTop :=
  items.filter fun item => item.parentKey = some key

theorem mem_tipsOf : item ∈ tipsOf items key ↔ item ∈ items ∧ item.parentKey = some key := by
  unfold tipsOf
  rw [mem_filter, decide_eq_true_eq]

theorem nodup_tipsOf (h : items.Nodup) : (tipsOf items key).Nodup := h.filter _

namespace Plan

/-- The plan that some tips make. -/
structure Describes (seen : List DecodedShardTop) (plan : Plan) : Prop where
  targets : ∀ key, key ∈ plan.targets ↔ key ∈ seen.map (·.target)
  transitions : plan.transitions = (seen.filter (·.parentKey = none)).map (·.transition)
  splits : ∀ key : ShardRegistryKey,
    plan.splits[key]? = if tipsOf seen key = [] then none else some (tipsOf seen key)

theorem describes_nil : Describes [] ⟨[], ∅, []⟩ where
  targets := by simp
  transitions := rfl
  splits := by simp [tipsOf]

variable {seen rest : List DecodedShardTop} {plan plan' : Plan}

/-- What one more tip makes of a plan. -/
def with_ (plan : Plan) (item : DecodedShardTop) : Plan :=
  match item.parentKey with
  | some key => { plan with
      targets := item.target :: plan.targets
      splits := plan.splits.insert key (plan.splits.getD key [] ++ [item]) }
  | none => { plan with
      targets := item.target :: plan.targets
      transitions := plan.transitions ++ [item.transition] }

theorem add_eq_ok : plan.add item = .ok plan' ↔
    item.target ∉ plan.targets ∧ plan' = plan.with_ item := by
  unfold add with_ DecodedShardTop.parentKey
  rw [bind_eq_ok]
  simp only [require_eq_ok, Bool.not_eq_true', contains_eq_mem, decide_eq_false_iff_not,
    exists_const]
  apply and_congr_right
  intro _
  cases item.kind with
  | linear | merge =>
    constructor
    · intro h
      cases h
      rfl
    · rintro rfl
      rfl
  | split =>
    cases item.predecessor with
    | nil | cons =>
      constructor
      · intro h
        cases h
        rfl
      · rintro rfl
        rfl

theorem Describes.with_ (h : plan.Describes seen) :
    (plan.with_ item).Describes (seen ++ [item]) := by
  unfold Plan.with_
  cases parent : item.parentKey with
  | none =>
    refine ⟨?_, ?_, ?_⟩
    · intro key
      simp [h.targets, or_comm]
    · simp [h.transitions, parent]
    · intro key
      simp only [h.splits, tipsOf, filter_append, filter_cons, parent, filter_nil]
      simp
  | some key =>
    refine ⟨?_, ?_, ?_⟩
    · intro key
      simp [h.targets, or_comm]
    · simp [h.transitions, parent]
    · intro other
      rw [Std.ExtTreeMap.getElem?_insert]
      simp only [Std.LawfulEqCmp.compare_eq_iff_eq, Std.ExtTreeMap.getD_eq_getD_getElem?, h.splits]
      by_cases here : key = other
      · subst here
        by_cases first : tipsOf seen key = []
        · simp_all [tipsOf]
        · have more : tipsOf (seen ++ [item]) key = tipsOf seen key ++ [item] := by
            simp [tipsOf, parent]
          simp [first, more]
      · have absent : (decide (item.parentKey = some other)) = false := by simp [parent, here]
        simp [here, tipsOf, absent]

theorem Describes.addAll (h : plan.Describes seen) (distinct : (seen.map (·.target)).Nodup)
    (ok : rest.foldlM add plan = .ok plan') :
    ((seen ++ rest).map (·.target)).Nodup ∧ plan'.Describes (seen ++ rest) := by
  induction rest generalizing seen plan with
  | nil =>
    cases ok
    rw [append_nil]
    exact ⟨distinct, h⟩
  | cons item rest ih =>
    rw [foldlM_cons, bind_eq_ok] at ok
    obtain ⟨middle, first, ok⟩ := ok
    obtain ⟨fresh, rfl⟩ := add_eq_ok.mp first
    have apart : ((seen ++ [item]).map (·.target)).Nodup := by
      rw [h.targets] at fresh
      rw [map_append, nodup_append]
      refine ⟨distinct, nodup_singleton _, ?_⟩
      intro a mem b here
      rw [map_singleton, mem_singleton] at here
      rintro rfl
      exact fresh (here ▸ mem)
    have rest := ih h.with_ apart ok
    rwa [append_assoc, singleton_append] at rest

theorem Describes.exists_addAll (h : plan.Describes seen)
    (distinct : ((seen ++ rest).map (·.target)).Nodup) :
    ∃ plan', rest.foldlM add plan = .ok plan' := by
  induction rest generalizing seen plan with
  | nil => exact ⟨plan, rfl⟩
  | cons item rest ih =>
    have fresh : item.target ∉ plan.targets := by
      rw [h.targets]
      rw [map_append, map_cons, nodup_append] at distinct
      intro mem
      exact distinct.2.2 _ mem _ mem_cons_self rfl
    rw [← singleton_append, ← append_assoc] at distinct
    obtain ⟨plan', ok⟩ := ih h.with_ distinct
    refine ⟨plan', ?_⟩
    exact bind_eq_ok.mpr ⟨_, add_eq_ok.mpr ⟨fresh, rfl⟩, ok⟩

end Plan

theorem consumeOnce_iff {keys consumed : List ShardRegistryKey} :
    (∃ result, keys.foldlM consumeOnce consumed = .ok result) ↔
      keys.Nodup ∧ ∀ key ∈ keys, key ∉ consumed := by
  induction keys generalizing consumed with
  | nil => simp [pure, Except.pure]
  | cons key keys ih =>
    constructor
    · rintro ⟨result, ok⟩
      exact consumeOnce_nodup ok
    · rintro ⟨nodup, apart⟩
      rw [nodup_cons] at nodup
      have later : ∀ other ∈ keys, other ∉ key :: consumed := by
        intro other mem
        rw [mem_cons, not_or]
        refine ⟨?_, apart other (mem_cons_of_mem _ mem)⟩
        rintro rfl
        exact nodup.1 mem
      obtain ⟨result, ok⟩ := ih.mpr ⟨nodup.2, later⟩
      refine ⟨result, ?_⟩
      refine bind_eq_ok.mpr ⟨key :: consumed, bind_eq_ok.mpr ⟨(), ?_, rfl⟩, ok⟩
      have fresh := apart key mem_cons_self
      simpa using fresh

/-! ## Groups -/

/-- The tips of one transition. -/
inductive GroupOf : List DecodedShardTop → ShardRegistryTransition → Prop
  | alone {item : DecodedShardTop} (single : item.parentKey = none) :
      GroupOf [item] item.transition
  | pair {first second : DecodedShardTop} {key : ShardRegistryKey} {t : ShardRegistryTransition}
      (parent₁ : first.parentKey = some key) (parent₂ : second.parentKey = some key)
      (paired : pairSplit (key, [first, second]) = .ok t) : GroupOf [first, second] t

namespace GroupOf

variable {items : List DecodedShardTop} {t : ShardRegistryTransition}

theorem pairSplit_eq_ok (h : pairSplit (key, [first, second]) = .ok t) :
    first.leaf.block.shard = getChild key.shard true ∧
      second.leaf.block.shard = getChild key.shard false ∧
      key.shard ≠ 0#64 ∧ 0 < trailingZeros key.shard ∧ t = ⟨.split, [first.leaf, second.leaf],
        first.predecessor.take 1 ++ second.predecessor.take 1, [key]⟩ := by
  simp only [pairSplit, bind_eq_ok, childOf_eq_ok, child_eq_some, require_eq_ok, Bool.and_eq_true,
    beq_iff_eq] at h
  obtain ⟨_, ⟨ne, pos, rfl⟩, _, ⟨-, -, rfl⟩, _, ⟨left, right⟩, same⟩ := h
  cases same
  exact ⟨left, right, ne, pos, rfl⟩

theorem parentKey_of_mem (parent₁ : first.parentKey = some key)
    (parent₂ : second.parentKey = some key) (mem : item ∈ [first, second]) :
    item.parentKey = some key := by
  rw [mem_pair] at mem
  rcases mem with rfl | rfl
  · exact parent₁
  · exact parent₂

theorem ne_nil (h : GroupOf items t) : items ≠ [] := by
  cases h <;> simp

theorem outputs (h : GroupOf items t) :
    t.outputs.map (fun leaf => shardTopKey leaf.block) = items.map (·.target) := by
  cases h with
  | alone => rfl
  | pair _ _ paired =>
    obtain ⟨-, -, -, -, rfl⟩ := pairSplit_eq_ok paired
    rfl

theorem firstKey_mem (h : GroupOf items t) : t.firstKey ∈ items.map (·.target) := by
  cases h with
  | alone => simp [ShardRegistryTransition.firstKey, DecodedShardTop.transition,
      DecodedShardTop.target]
  | pair _ _ paired =>
    obtain ⟨-, -, -, -, rfl⟩ := pairSplit_eq_ok paired
    simp [ShardRegistryTransition.firstKey, DecodedShardTop.target]

/-- What a group consumes: the predecessors of a single tip, the parent of a pair. -/
theorem consumes_of_parent (h : GroupOf items t) (mem : item ∈ items)
    (parent : item.parentKey = some key) : t.consumes = [key] := by
  cases h with
  | alone single =>
    obtain rfl := mem_singleton.mp mem
    rw [single] at parent
    cases parent
  | pair parent₁ parent₂ paired =>
    obtain ⟨-, -, -, -, rfl⟩ := pairSplit_eq_ok paired
    rw [parentKey_of_mem parent₁ parent₂ mem] at parent
    rw [Option.some.inj parent]

theorem mem_consumes (h : GroupOf items t) (mem : item ∈ items)
    (parent : item.parentKey = some key) : key ∈ t.consumes := by
  rw [h.consumes_of_parent mem parent]
  exact mem_singleton_self key

end GroupOf

/-- The tips of a batch with distinct targets, sorted into groups. -/
structure Grouping (decoded : List DecodedShardTop)
    (groups : List (List DecodedShardTop × ShardRegistryTransition)) : Prop where
  group : ∀ g ∈ groups, GroupOf g.1 g.2
  tips : (groups.flatMap (·.1)).Perm decoded
  targets : (decoded.map (·.target)).Nodup

/-- No two groups consume one predecessor. -/
def Once (groups : List (List DecodedShardTop × ShardRegistryTransition)) : Prop :=
  ((groups.map (·.2)).flatMap (·.consumes)).Nodup

namespace Grouping

variable {decoded : List DecodedShardTop}
  {groups groups' : List (List DecodedShardTop × ShardRegistryTransition)}

section

variable (h : Grouping decoded groups) {g g' : List DecodedShardTop × ShardRegistryTransition}

include h

theorem nodup : decoded.Nodup := h.targets.of_map _

theorem exists_group (mem : item ∈ decoded) : ∃ g ∈ groups, item ∈ g.1 :=
  mem_flatMap.mp (h.tips.mem_iff.mpr mem)

theorem mem_of_group (hg : g ∈ groups) (mem : item ∈ g.1) : item ∈ decoded :=
  h.tips.mem_iff.mp (mem_flatMap.mpr ⟨g, hg, mem⟩)

theorem firstKeys : ((groups.map (·.2)).map ShardRegistryTransition.firstKey).Nodup := by
  rw [map_map]
  apply nodup_map_of_flatMap (fun g hg => (h.group g hg).firstKey_mem)
  have keys : groups.flatMap (fun g => g.1.map (·.target)) =
      (groups.flatMap (·.1)).map (·.target) := by
    rw [map_flatMap]
  rw [keys]
  exact (h.tips.map _).nodup_iff.mpr h.targets

omit h in
theorem eq_of_consumes (once : Once groups)
    (hg : g ∈ groups) (hg' : g' ∈ groups) (mem : key ∈ g.2.consumes) (mem' : key ∈ g'.2.consumes) :
    g = g' := by
  unfold Once at once
  rw [flatMap_map] at once
  exact eq_of_mem_owned once hg hg' mem mem'

/-- A group of one grouping has the transition of each group of another that it meets. -/
theorem transition_eq (h' : Grouping decoded groups') (once : Once groups')
    (hg : g ∈ groups) (hg' : g' ∈ groups') (mem : item ∈ g.1)
    (mem' : item ∈ g'.1) : g.2 = g'.2 := by
  obtain ⟨items, t⟩ := g
  obtain ⟨items', t'⟩ := g'
  have group := h.group _ hg
  have group' := h'.group _ hg'
  cases group with
  | alone single =>
    obtain rfl := mem_singleton.mp mem
    cases group' with
    | alone single' =>
      obtain rfl := mem_singleton.mp mem'
      rfl
    | pair parent₁ parent₂ =>
      rw [GroupOf.parentKey_of_mem parent₁ parent₂ mem'] at single
      cases single
  | @pair first second key _ parent₁ parent₂ paired =>
    have parent := GroupOf.parentKey_of_mem parent₁ parent₂ mem
    -- the two tips of the pair lie in the one group that consumes their parent
    have there {tip : DecodedShardTop} (hp : tip.parentKey = some key)
        (ht : tip ∈ [first, second]) : tip ∈ items' := by
      obtain ⟨g'', hg'', mem''⟩ := h'.exists_group (h.mem_of_group hg ht)
      rw [eq_of_consumes once hg'' hg' ((h'.group _ hg'').mem_consumes mem'' hp)
        (group'.mem_consumes mem' parent)] at mem''
      exact mem''
    have in₁ := there parent₁ (by simp)
    have in₂ := there parent₂ (by simp)
    cases group' with
    | alone single =>
      obtain rfl := mem_singleton.mp in₁
      rw [single] at parent₁
      cases parent₁
    | @pair first' second' key' _ parent₁' parent₂' paired' =>
      obtain ⟨left, right, ne, pos, same⟩ := GroupOf.pairSplit_eq_ok paired
      obtain ⟨left', right', -, -, same'⟩ := GroupOf.pairSplit_eq_ok paired'
      obtain rfl : key' = key := by
        rw [GroupOf.parentKey_of_mem parent₁' parent₂' in₁] at parent₁
        exact Option.some.inj parent₁
      have sides : getChild key'.shard true ≠ getChild key'.shard false := by
        intro same
        cases (getChild_inj ⟨ne, pos⟩ ⟨ne, pos⟩ same).2
      have eq₁ : first = first' := by
        rw [mem_pair] at in₁
        rcases in₁ with rfl | rfl
        · rfl
        · exact absurd (left.symm.trans right') sides
      have eq₂ : second = second' := by
        rw [mem_pair] at in₂
        rcases in₂ with rfl | rfl
        · exact absurd (left'.symm.trans right) sides
        · rfl
      rw [eq₁, eq₂] at same
      rw [same, same']

theorem perm (h' : Grouping decoded groups') (once : Once groups') :
    (groups.map (·.2)).Perm (groups'.map (·.2)) := by
  rw [perm_ext_iff_of_nodup (h.firstKeys.of_map _) (h'.firstKeys.of_map _)]
  have some_ {g : List DecodedShardTop × ShardRegistryTransition} (group : GroupOf g.1 g.2) :
      ∃ item, item ∈ g.1 := exists_mem_of_ne_nil _ group.ne_nil
  intro t
  simp only [mem_map]
  constructor
  · rintro ⟨g, hg, rfl⟩
    obtain ⟨item, mem⟩ := some_ (h.group g hg)
    obtain ⟨g', hg', mem'⟩ := h'.exists_group (h.mem_of_group hg mem)
    exact ⟨g', hg', (h.transition_eq h' once hg hg' mem mem').symm⟩
  · rintro ⟨g', hg', rfl⟩
    obtain ⟨item, mem'⟩ := some_ (h'.group g' hg')
    obtain ⟨g, hg, mem⟩ := h.exists_group (h'.mem_of_group hg' mem')
    exact ⟨g, hg, h.transition_eq h' once hg hg' mem mem'⟩

end

end Grouping

/-! ## The finished plan -/

section Finished

variable {decoded seen : List DecodedShardTop} {transitions pairs : List ShardRegistryTransition}
  {groups : List (List DecodedShardTop × ShardRegistryTransition)} {plan : Plan}
  {t : ShardRegistryTransition}

theorem groupOf_pairSplit (ok : pairSplit (key, tipsOf items key) = .ok t) :
    GroupOf (tipsOf items key) t := by
  have parent (item : DecodedShardTop) (mem : item ∈ tipsOf items key) :
      item.parentKey = some key := (mem_tipsOf.mp mem).2
  match tips : tipsOf items key, ok, parent with
  | [], ok, _ => cases ok
  | [_], ok, _ => cases ok
  | [first, second], ok, parent => exact .pair (parent first (by simp)) (parent second (by simp)) ok
  | _ :: _ :: _ :: _, ok, _ => cases ok

theorem Plan.Describes.mem_splits (h : plan.Describes seen)
    {split : ShardRegistryKey × List DecodedShardTop} (mem : split ∈ plan.splits.toList) :
    split.2 = tipsOf seen split.1 ∧ tipsOf seen split.1 ≠ [] := by
  have found := Std.ExtTreeMap.mem_toList_iff_getElem?_eq_some.mp mem
  rw [h.splits] at found
  split at found
  · cases found
  next some_ =>
    exact ⟨(Option.some.inj found).symm, some_⟩

theorem Plan.Describes.exists_split (h : plan.Describes seen)
    (mem : item ∈ seen) (parent : item.parentKey = some key) :
    (key, tipsOf seen key) ∈ plan.splits.toList := by
  rw [Std.ExtTreeMap.mem_toList_iff_getElem?_eq_some, h.splits, if_neg]
  exact ne_nil_of_mem (mem_tipsOf.mpr ⟨mem, parent⟩)

theorem Plan.splits_distinct (plan : Plan) :
    plan.splits.toList.Pairwise fun s s' => s.1 ≠ s'.1 := by
  have keys := nodup_toList_fst plan.splits
  rwa [List.Nodup, pairwise_map] at keys

theorem Plan.Describes.grouping (h : plan.Describes (sortByKey (·.target) decoded))
    (distinct : (decoded.map (·.target)).Nodup)
    (paired : plan.splits.toList.mapM pairSplit = .ok pairs) :
    ∃ groups, Grouping decoded groups ∧ groups.map (·.2) = plan.transitions ++ pairs := by
  obtain ⟨splits, fsts, snds, each⟩ := mapM_pairs paired
  let sorted := sortByKey (·.target) decoded
  let alone := sorted.filter (·.parentKey = none)
  have tipsFor (z) (mem : z ∈ splits) : z.1.2 = tipsOf sorted z.1.1 :=
    (h.mem_splits (fsts ▸ mem_map_of_mem mem)).1
  refine ⟨alone.map (fun item => ([item], item.transition)) ++ splits.map fun z => (z.1.2, z.2),
    ⟨?_, ?_, distinct⟩, ?_⟩
  · intro g mem
    rcases mem_append.mp mem with single | pair
    · obtain ⟨item, inside, rfl⟩ := mem_map.mp single
      have none_ := (mem_filter.mp inside).2
      exact .alone (by simpa using none_)
    · obtain ⟨z, inside, rfl⟩ := mem_map.mp pair
      have ok := each z inside
      rw [show z.1 = (z.1.1, z.1.2) from rfl, tipsFor z inside] at ok
      rw [tipsFor z inside]
      exact groupOf_pairSplit ok
  · have unique : sorted.Nodup := perm_sortByKey.nodup_iff.mpr (distinct.of_map _)
    have flat : ((alone.map fun item => ([item], item.transition)) ++
        splits.map fun z => (z.1.2, z.2)).flatMap (·.1) =
          alone ++ plan.splits.toList.flatMap (·.2) := by
      rw [flatMap_append, flatMap_map, flatMap_map, ← fsts, flatMap_map]
      simp
    have flatNodup : (alone ++ plan.splits.toList.flatMap (·.2)).Nodup := by
      rw [nodup_append, nodup_flatMap]
      refine ⟨unique.filter _, ⟨?_, ?_⟩, ?_⟩
      · intro split mem
        rw [(h.mem_splits mem).1]
        exact nodup_tipsOf unique
      · apply plan.splits_distinct.imp_of_mem
        intro s s' hs hs' ne item mem mem'
        change item ∈ s.2 at mem
        change item ∈ s'.2 at mem'
        rw [(h.mem_splits hs).1] at mem
        rw [(h.mem_splits hs').1] at mem'
        apply ne
        exact Option.some.inj ((mem_tipsOf.mp mem).2.symm.trans (mem_tipsOf.mp mem').2)
      · intro a single b inSplit same
        subst same
        obtain ⟨split, mem, inside⟩ := mem_flatMap.mp inSplit
        rw [(h.mem_splits mem).1] at inside
        have none_ := (mem_filter.mp single).2
        simp [(mem_tipsOf.mp inside).2] at none_
    have batch : sorted.Perm decoded := perm_sortByKey
    rw [flat]
    refine List.Perm.trans ?_ batch
    rw [perm_ext_iff_of_nodup flatNodup unique]
    intro item
    rw [mem_append, mem_flatMap]
    constructor
    · rintro (single | ⟨split, mem, inside⟩)
      · exact mem_of_mem_filter single
      · rw [(h.mem_splits mem).1] at inside
        exact (mem_tipsOf.mp inside).1
    · intro mem
      cases parent : item.parentKey with
      | none => exact .inl (mem_filter.mpr ⟨mem, by simp [parent]⟩)
      | some key =>
        exact .inr ⟨_, h.exists_split mem parent, mem_tipsOf.mpr ⟨mem, parent⟩⟩
  · rw [map_append, map_map, map_map, h.transitions, ← snds]
    rfl

theorem plan_grouping (h : planShardRegistryTransitions decoded = .ok transitions) :
    ∃ groups, Grouping decoded groups ∧ Once groups ∧
      transitions = sortByKey ShardRegistryTransition.firstKey (groups.map (·.2)) := by
  unfold planShardRegistryTransitions at h
  simp only [bind_eq_ok] at h
  obtain ⟨plan, planned, pairs, paired, consumed, once, result⟩ := h
  cases result
  obtain ⟨distinct, describes⟩ := Plan.describes_nil.addAll nodup_nil planned
  obtain ⟨groups, grouping, same⟩ := describes.grouping
    ((perm_sortByKey.map _).nodup_iff.mp distinct) paired
  refine ⟨groups, grouping, ?_, by rw [same]⟩
  unfold Once
  rw [same]
  exact (perm_sortByKey.flatMap_right _).nodup_iff.mp (consumeOnce_nodup once).1

section

variable (h : Grouping decoded groups) (once : Once groups) (sound : ∀ item ∈ decoded, item.Sound)
include h once sound

theorem Grouping.tipsOf_eq (hg : ([first, second], t) ∈ groups)
    (parent₁ : first.parentKey = some key) (parent₂ : second.parentKey = some key)
    (paired : pairSplit (key, [first, second]) = .ok t) :
    tipsOf (sortByKey (·.target) decoded) key = [first, second] := by
  have mem₁ : first ∈ decoded := h.mem_of_group hg (by simp)
  have mem₂ : second ∈ decoded := h.mem_of_group hg (by simp)
  have unique : (sortByKey (·.target) decoded).Nodup := perm_sortByKey.nodup_iff.mpr h.nodup
  obtain ⟨left, right, ne, pos, -⟩ := GroupOf.pairSplit_eq_ok paired
  have order := getChild_lt_getChild ne pos
  rw [← left, ← right] at order
  have lt : (ShardRegistryKey.cmp first.target second.target).isLE = true := by
    have less : compare first.target.shard.toNat second.target.shard.toNat = .lt :=
      Nat.compare_eq_lt.mpr order
    simp [ShardRegistryKey.cmp, compareLex, compareOn, (sound _ mem₁).parent_workchain parent₁,
      (sound _ mem₂).parent_workchain parent₂, less]
  apply eq_of_perm_of_sorted ShardRegistryKey.cmp (fun item : DecodedShardTop => item.target)
  · have differ : first ≠ second := by
      rintro rfl
      omega
    rw [perm_ext_iff_of_nodup (nodup_tipsOf unique) (by simpa using differ)]
    intro item
    rw [mem_tipsOf, mem_sortByKey]
    constructor
    · rintro ⟨mem, parent⟩
      obtain ⟨g, hg', inside⟩ := h.exists_group mem
      have same : g = ([first, second], t) :=
        Grouping.eq_of_consumes once hg' hg ((h.group _ hg').mem_consumes inside parent)
          ((h.group _ hg).mem_consumes mem_cons_self parent₁)
      rw [same] at inside
      exact inside
    · intro mem
      exact ⟨h.mem_of_group hg mem, GroupOf.parentKey_of_mem parent₁ parent₂ mem⟩
  · intro x hx y hy
    exact inj_on_of_nodup_map h.targets (mem_sortByKey.mp (mem_tipsOf.mp hx).1)
      (mem_sortByKey.mp (mem_tipsOf.mp hy).1)
  · exact pairwise_sortByKey.filter _
  · simpa using lt

theorem Grouping.planned :
    planShardRegistryTransitions decoded =
      .ok (sortByKey ShardRegistryTransition.firstKey (groups.map (·.2))) := by
  have distinct : ((sortByKey (·.target) decoded).map (·.target)).Nodup :=
    (perm_sortByKey.map _).nodup_iff.mpr h.targets
  obtain ⟨plan, planned⟩ : ∃ plan,
      (sortByKey (·.target) decoded).foldlM Plan.add ⟨[], ∅, []⟩ = .ok plan :=
    Plan.describes_nil.exists_addAll distinct
  have describes := (Plan.describes_nil.addAll nodup_nil planned).2
  rw [nil_append] at describes
  have each : ∀ split ∈ plan.splits.toList, ∃ t, pairSplit split = .ok t := by
    intro split mem
    obtain ⟨tips, some_⟩ := describes.mem_splits mem
    obtain ⟨item, inTips⟩ := exists_mem_of_ne_nil _ some_
    obtain ⟨inside, parent⟩ := mem_tipsOf.mp inTips
    obtain ⟨g, hg, inGroup⟩ := h.exists_group (mem_sortByKey.mp inside)
    have consumes := (h.group g hg).consumes_of_parent inGroup parent
    obtain ⟨items, t⟩ := g
    cases h.group _ hg with
    | alone single =>
      obtain rfl := mem_singleton.mp inGroup
      rw [single] at parent
      cases parent
    | @pair first second key _ parent₁ parent₂ paired =>
      obtain ⟨-, -, -, -, same⟩ := GroupOf.pairSplit_eq_ok paired
      obtain rfl : key = split.1 := by
        rw [same] at consumes
        simpa using consumes
      refine ⟨t, ?_⟩
      rw [show split = (split.1, split.2) from rfl, tips,
        h.tipsOf_eq once sound hg parent₁ parent₂ paired]
      exact paired
  obtain ⟨pairs, paired⟩ := mapM_isOk each
  obtain ⟨groups', grouping, same⟩ := describes.grouping h.targets paired
  have perm := grouping.perm h once
  have sorted : sortByKey ShardRegistryTransition.firstKey (plan.transitions ++ pairs) =
      sortByKey ShardRegistryTransition.firstKey (groups.map (·.2)) := by
    rw [← same]
    exact sortByKey_eq_of_perm perm grouping.firstKeys
  have nodup : ((sortByKey ShardRegistryTransition.firstKey (groups.map (·.2))).flatMap
      (·.consumes)).Nodup := (perm_sortByKey.flatMap_right _).nodup_iff.mpr once
  obtain ⟨consumed, spent⟩ := consumeOnce_iff.mpr ⟨nodup, fun _ _ => not_mem_nil⟩
  unfold planShardRegistryTransitions
  simp only [bind_eq_ok]
  refine ⟨plan, planned, pairs, paired, consumed, ?_, ?_⟩
  · rw [sorted]
    exact spent
  · rw [sorted]
    rfl

end

theorem plan_perm {decoded' : List DecodedShardTop} (same : decoded.Perm decoded')
    (sound : ∀ item ∈ decoded, item.Sound)
    (h : planShardRegistryTransitions decoded = .ok transitions) :
    planShardRegistryTransitions decoded' = .ok transitions := by
  obtain ⟨groups, grouping, once, rfl⟩ := plan_grouping h
  have grouping' : Grouping decoded' groups :=
    ⟨grouping.group, grouping.tips.trans same, (same.map _).nodup_iff.mp grouping.targets⟩
  exact grouping'.planned once fun item mem => sound item (same.mem_iff.mpr mem)

end Finished

end Gton.Collator
