import Gton.Collator.ShardPartition
import Gton.Collator.ShardPlan

/-!
# Staging transitions

A transition exchanges the shards it consumes for shards that cover the same accounts. In a
registry that partitions its workchains the transitions of a batch therefore never meet, and the
leaves that come out depend only on which transitions were staged.
-/

namespace Gton.Collator

open Gton.Shard
open Gton.Lib.Bits
open Gton.Lib.Tiling
open Gton.Lib.Fallible
open List

/-! ## The accounts of all workchains -/

/-- The accounts of a shard, each with its workchain. -/
def ShardRegistryKey.tile (key : ShardRegistryKey) : Set (BitVec 32 × BitVec 64) :=
  { p | p.1 = key.workchain ∧ p.2 ∈ cover key.shard }

theorem tile_nonempty_iff {key : ShardRegistryKey} : key.tile.Nonempty ↔ key.shard ≠ 0#64 := by
  rw [← cover_nonempty_iff]
  constructor
  · rintro ⟨p, -, mem⟩
    exact ⟨p.2, mem⟩
  · rintro ⟨x, mem⟩
    exact ⟨(key.workchain, x), rfl, mem⟩

/-- The leaves of a map cover each account of some workchains once. -/
def Tiled (workchains : Set (BitVec 32)) (leaves : LeafMap) : Prop :=
  Tiles ShardRegistryKey.tile { p | p.1 ∈ workchains } leaves.keys

variable {w : BitVec 32}

section Tiled

variable {r : ShardRegistry} {leaves : LeafMap} {workchains : Set (BitVec 32)}

theorem tiled_of_partition
    (h : ∀ w, (∃ k ∈ r.leaves, k.workchain = w) → Partition (r.shardsOf w)) :
    Tiled { w | ∃ k ∈ r.leaves, k.workchain = w } r.leaves := by
  have inside {k : ShardRegistryKey} (mem : k ∈ r.leaves) : k.shard ∈ r.shardsOf k.workchain := by
    exact mem_map_of_mem (mem_filter.mpr ⟨Std.ExtTreeMap.mem_keys.mpr mem, by simp⟩)
  refine ⟨?_, ?_, ?_⟩
  · intro k mem
    have there := Std.ExtTreeMap.mem_keys.mp mem
    exact tile_nonempty_iff.mpr ((h _ ⟨k, there, rfl⟩).depth _ (inside there)).1
  · apply (nodup_keys r.leaves).pairwise_of_forall_ne
    intro k mem k' mem' ne
    rw [Set.disjoint_left]
    rintro ⟨w, x⟩ ⟨rfl, hx⟩ ⟨same, hx'⟩
    have there := Std.ExtTreeMap.mem_keys.mp mem
    have there' := inside (Std.ExtTreeMap.mem_keys.mp mem')
    rw [← same] at there'
    have tiles := partition_iff_tiles.mp (h _ ⟨k, there, rfl⟩)
    apply ne
    have shard := tiles.eq_of_mem (inside there) there' hx hx'
    cases k
    cases k'
    simp_all
  · rintro ⟨w, x⟩
    constructor
    · rintro ⟨k, mem, rfl⟩
      obtain ⟨s, hs, hx⟩ := (h _ ⟨k, mem, rfl⟩).covering x
      obtain ⟨k', mem', rfl⟩ := mem_map.mp hs
      obtain ⟨mem', here⟩ := mem_filter.mp mem'
      exact ⟨k', mem', (beq_iff_eq.mp here).symm, hx⟩
    · rintro ⟨k, mem, rfl, -⟩
      exact ⟨k, Std.ExtTreeMap.mem_keys.mp mem, rfl⟩

theorem storeWorkchains_ok {all : List ShardRegistryLeaf} {ws : List (BitVec 32)}
    (h : ∀ w ∈ ws, ∃ tree, buildWorkchainShardTree root (workchainLeaves all w) = .ok tree)
    {result : ShardHashes} : ∃ result', ws.foldlM (storeWorkchain all) result = .ok result' := by
  induction ws generalizing result with
  | nil => exact ⟨result, rfl⟩
  | cons w ws ih =>
    obtain ⟨tree, built⟩ := h w mem_cons_self
    obtain ⟨result', rest⟩ := ih fun w mem => h w (mem_cons_of_mem _ mem)
    refine ⟨result', ?_⟩
    exact bind_eq_ok.mpr ⟨_, bind_eq_ok.mpr ⟨tree, built, rfl⟩, rest⟩

/-- Every descriptor of a map leaves room for the tag bit. -/
def Roomy (leaves : LeafMap) : Prop := Everywhere (fun _ leaf => leaf.descriptor.Roomy) leaves

/-- Every leaf of a map stands under its own key. -/
def Keyed (leaves : LeafMap) : Prop :=
  Everywhere (fun key leaf => shardTopKey leaf.block = key) leaves

theorem tiles_workchainLeaves (keyed : Keyed leaves) (tiled : Tiled workchains leaves)
    (mem : w ∈ workchainsOf (sortedShardRegistryLeaves leaves)) :
    Tiles ShardRegistryLeaf.region (cover root)
      (workchainLeaves (sortedShardRegistryLeaves leaves) w) := by
  unfold Tiled at tiled
  rw [keys_eq keyed, tiles_map] at tiled
  have there : w ∈ workchains := by
    obtain ⟨leaf, inside, rfl⟩ := mem_workchainsOf.mp mem
    obtain ⟨p, here, hp⟩ := tiled.inhabited leaf inside
    have := (tiled.fills p).mpr ⟨leaf, inside, here, hp⟩
    change p.1 ∈ workchains at this
    rwa [here] at this
  have tiles : Tiles ShardRegistryLeaf.region (cover root)
      ((sortedShardRegistryLeaves leaves).filter (·.block.workchain == w)) := by
    refine ⟨?_, ?_, ?_⟩
    · intro leaf inside
      obtain ⟨p, -, hp⟩ := tiled.inhabited leaf (mem_of_mem_filter inside)
      exact ⟨p.2, hp⟩
    · apply (tiled.disjoint.filter _).imp_of_mem
      intro leaf leaf' inside inside' apart
      have here := (mem_filter.mp inside).2
      have here' := (mem_filter.mp inside').2
      rw [beq_iff_eq] at here here'
      rw [Set.disjoint_left] at apart ⊢
      intro x hx hx'
      exact @apart (w, x) ⟨here.symm, hx⟩ ⟨here'.symm, hx'⟩
    · intro x
      rw [cover_root]
      refine ⟨fun _ => ?_, fun _ => trivial⟩
      obtain ⟨leaf, inside, here, hx⟩ := (tiled.fills (w, x)).mp there
      exact ⟨leaf, mem_filter.mpr ⟨inside, beq_iff_eq.mpr here.symm⟩, hx⟩
  exact tiles.perm (perm_insertionSort _ _).symm

theorem build_of_tiled (keyed : Keyed leaves) (tiled : Tiled workchains leaves)
    (roomy : Roomy leaves) :
    ∃ shardHashes, buildShardHashesDictionary leaves = .ok shardHashes := by
  apply storeWorkchains_ok
  intro w mem
  have ne : root ≠ 0#64 := by decide
  apply (buildTree_ok_iff_tiles ne rfl).mpr
  refine ⟨tiles_workchainLeaves keyed tiled mem, ?_⟩
  intro leaf inside
  obtain ⟨k, found⟩ := mem_sortedShardRegistryLeaves.mp (mem_workchainLeaves.mp inside).1
  exact roomy found

theorem roomy_of_build {shardHashes : ShardHashes}
    (built : buildShardHashesDictionary leaves = .ok shardHashes) : Roomy leaves := by
  intro k leaf found
  have inside := mem_sortedShardRegistryLeaves.mpr ⟨k, found⟩
  rcases buildShardHashesDictionary_spec built leaf.block.workchain with ⟨tree, ok, -⟩ | ⟨apart, -⟩
  · have ne : root ≠ 0#64 := by decide
    exact ((buildTree_ok_iff_tiles ne rfl).mp ⟨tree, ok⟩).2 leaf
      (mem_workchainLeaves.mpr ⟨inside, rfl⟩)
  · exact absurd rfl (apart leaf inside)

end Tiled

/-! ## What a transition exchanges -/

/-- The outputs cover what the consumed shards covered. -/
def Exchanges (t : ShardRegistryTransition) : Prop :=
  ∃ part, Tiles ShardRegistryKey.tile part t.consumes ∧
    Tiles ShardRegistryKey.tile part (t.outputs.map fun leaf => shardTopKey leaf.block)

theorem tiles_children {x : BitVec 64} (ne : x ≠ 0#64) (pos : 0 < trailingZeros x) :
    Tiles ShardRegistryKey.tile (ShardRegistryKey.tile ⟨w, x⟩)
      [⟨w, getChild x true⟩, ⟨w, getChild x false⟩] where
  inhabited := by
    have some_ (left : Bool) : getChild x left ≠ 0#64 := getChild_ne_zero ne pos
    intro k mem
    rw [mem_pair] at mem
    rcases mem with rfl | rfl
    · exact tile_nonempty_iff.mpr (some_ true)
    · exact tile_nonempty_iff.mpr (some_ false)
  disjoint := by
    simp only [pairwise_cons, mem_singleton, forall_eq, not_mem_nil,
      false_implies, implies_true, List.Pairwise.nil, and_true]
    rw [Set.disjoint_left]
    rintro p ⟨-, left⟩ ⟨-, right⟩
    exact Set.disjoint_left.mp (disjoint_children ne pos) left right
  fills := by
    rintro ⟨w', y⟩
    simp only [ShardRegistryKey.tile, cover_children ne pos, Set.mem_ofPred_eq, Set.mem_union,
      mem_cons, not_mem_nil, or_false, exists_eq_or_imp, exists_eq_left]
    rw [and_or_left]

/-- A tip's own target is a shard. -/
def DecodedShardTop.Tagged (item : DecodedShardTop) : Prop := item.target.shard ≠ 0#64

theorem GroupOf.exchanges {items : List DecodedShardTop} {t : ShardRegistryTransition}
    (h : GroupOf items t) (sound : ∀ item ∈ items, item.Sound)
    (tagged : ∀ item ∈ items, item.Tagged) : Exchanges t := by
  cases h with
  | @alone item single =>
    have sound := sound item (by simp)
    have whole := tile_nonempty_iff.mpr (tagged item (by simp))
    cases kind : item.kind with
    | linear =>
      refine ⟨item.target.tile, ?_, .single whole⟩
      change Tiles _ _ (item.predecessor.map shardTopKey)
      rw [sound.linear kind]
      exact .single whole
    | split => exact absurd kind (sound.parentKey_eq_none.mp single)
    | merge =>
      obtain ⟨left, right, hl, hr, consumed⟩ := sound.merge kind
      obtain ⟨ne, pos, rfl⟩ := child_eq_some.mp hl
      obtain ⟨-, -, rfl⟩ := child_eq_some.mp hr
      exact ⟨item.target.tile, (tiles_children ne pos).perm consumed.symm, .single whole⟩
  | @pair first second key _ parent₁ parent₂ paired =>
    obtain ⟨left, right, ne, pos, rfl⟩ := GroupOf.pairSplit_eq_ok paired
    have workchain : first.leaf.block.workchain = key.workchain :=
      (sound first (by simp)).parent_workchain parent₁
    have workchain' : second.leaf.block.workchain = key.workchain :=
      (sound second (by simp)).parent_workchain parent₂
    refine ⟨key.tile, .single (tile_nonempty_iff.mpr ne), ?_⟩
    have keys : [first.leaf, second.leaf].map (fun leaf => shardTopKey leaf.block) =
        [⟨key.workchain, getChild key.shard true⟩, ⟨key.workchain, getChild key.shard false⟩] := by
      simp [shardTopKey, left, right, workchain, workchain']
    rw [keys]
    exact tiles_children ne pos

/-! ## Staging -/

section Staging

variable {workchains : Set (BitVec 32)} {leaves leaves' accepted accepted' middle : LeafMap}
  {t : ShardRegistryTransition} {ts ts' : List ShardRegistryTransition} {k : ShardRegistryKey}
  {outputs : List ShardRegistryLeaf}

/-- The keys of a transition's outputs. -/
def ShardRegistryTransition.outputKeys (t : ShardRegistryTransition) : List ShardRegistryKey :=
  t.outputs.map fun leaf => shardTopKey leaf.block

theorem mem_outputKeys : k ∈ t.outputKeys ↔ ∃ o ∈ t.outputs, shardTopKey o.block = k := by
  unfold ShardRegistryTransition.outputKeys
  rw [mem_map]

/-- What staging some transitions makes of the leaves. -/
structure StagedAll (workchains : Set (BitVec 32)) (ts : List ShardRegistryTransition)
    (leaves leaves' : LeafMap) : Prop where
  tiled : Tiled workchains leaves'
  enters : ∀ t ∈ ts, ∀ o ∈ t.outputs, leaves'[shardTopKey o.block]? = some o
  gone : ∀ k : ShardRegistryKey, (∃ t ∈ ts, k ∈ t.consumes) → (∀ t ∈ ts, k ∉ t.outputKeys) →
    leaves'[k]? = none
  others : ∀ k : ShardRegistryKey, (∀ t ∈ ts, k ∉ t.consumes) → (∀ t ∈ ts, k ∉ t.outputKeys) →
    leaves'[k]? = leaves[k]?

/-- An output can only stand where its own transition made room. -/
theorem Exchanges.mem_consumes (ex : Exchanges t) (tiled : Tiled workchains leaves)
    (there : ∀ k ∈ t.consumes, k ∈ leaves) (output : k ∈ t.outputKeys)
    (found : k ∈ leaves) : k ∈ t.consumes := by
  obtain ⟨part, consumed, produced⟩ := ex
  obtain ⟨p, hp⟩ := produced.inhabited k output
  obtain ⟨c, hc, hp'⟩ := (consumed.fills p).mp (produced.subset output hp)
  have same := tiled.eq_of_mem (Std.ExtTreeMap.mem_keys.mpr found)
    (Std.ExtTreeMap.mem_keys.mpr (there c hc)) hp hp'
  rw [same]
  exact hc

theorem stageOutputs_ok (distinct : (outputs.map fun leaf => shardTopKey leaf.block).Nodup)
    (fresh : ∀ o ∈ outputs, leaves[shardTopKey o.block]? = none) :
    ∃ leaves' accepted', outputs.foldlM stageOutput (leaves, accepted) =
      .ok (leaves', accepted') := by
  induction outputs generalizing leaves accepted with
  | nil => exact ⟨_, _, rfl⟩
  | cons o outputs ih =>
    rw [map_cons, nodup_cons] at distinct
    have later : ∀ o' ∈ outputs,
        (leaves.insert (shardTopKey o.block) o)[shardTopKey o'.block]? = none := by
      intro o' mem
      rw [Std.ExtTreeMap.getElem?_insert, if_neg]
      · exact fresh o' (mem_cons_of_mem _ mem)
      · rw [Std.LawfulEqCmp.compare_eq_iff_eq]
        intro same
        exact distinct.1 (same ▸ mem_map_of_mem mem)
    obtain ⟨leaves', accepted', rest⟩ := ih distinct.2 later
    refine ⟨leaves', accepted', ?_⟩
    refine bind_eq_ok.mpr ⟨_, bind_eq_ok.mpr ⟨(), ?_, rfl⟩, rest⟩
    rw [require_eq_ok, Bool.not_eq_true', Std.ExtTreeMap.contains_eq_isSome_getElem?,
      fresh o mem_cons_self]
    rfl

theorem stageOutputs_accepted
    (h : outputs.foldlM stageOutput (leaves, accepted) = .ok (leaves', accepted')) :
    accepted'[k]? = if k ∈ outputs.map (fun leaf => shardTopKey leaf.block) then leaves'[k]?
      else accepted[k]? := by
  induction outputs generalizing leaves accepted with
  | nil =>
    cases h
    simp
  | cons o outputs ih =>
    have entered := (stageOutputs_spec h).enters o mem_cons_self
    rw [foldlM_cons, bind_eq_ok] at h
    obtain ⟨⟨middle, some_⟩, first, rest⟩ := h
    obtain ⟨-, rfl, rfl⟩ := stageOutput_eq_ok first
    rw [ih rest, map_cons]
    by_cases later : k ∈ outputs.map fun leaf => shardTopKey leaf.block
    · rw [if_pos later, if_pos (mem_cons_of_mem _ later)]
    · rw [if_neg later, Std.ExtTreeMap.getElem?_insert]
      simp only [Std.LawfulEqCmp.compare_eq_iff_eq, mem_cons, later, or_false]
      by_cases here : shardTopKey o.block = k
      · rw [if_pos here, if_pos here.symm, ← here, entered]
      · rw [if_neg here, if_neg (Ne.symm here)]

theorem stage_one (accepted : LeafMap) (ex : Exchanges t) (tiled : Tiled workchains leaves)
    (there : ∀ k ∈ t.consumes, k ∈ leaves) :
    ∃ leaves' accepted', stageTransition (leaves, accepted) t = .ok (leaves', accepted') ∧
      StagedAll workchains [t] leaves leaves' := by
  obtain ⟨part, consumed, produced⟩ := id ex
  have fresh : ∀ o ∈ t.outputs,
      (t.consumes.foldl (fun leaves key => leaves.erase key) leaves)[shardTopKey o.block]? =
        none := by
    intro o mem
    rw [getElem?_foldl_erase]
    split
    · rfl
    next kept =>
      by_contra found
      apply kept
      apply ex.mem_consumes tiled there (mem_outputKeys.mpr ⟨o, mem, rfl⟩)
      exact mem_leaves_iff.mpr (Option.ne_none_iff_exists'.mp found)
  obtain ⟨leaves', accepted', staged⟩ : ∃ leaves' accepted',
      stageTransition (leaves, accepted) t = .ok (leaves', accepted') :=
    stageOutputs_ok produced.nodup fresh
  obtain ⟨sound, keeps, enters⟩ := stageTransition_spec staged
  refine ⟨leaves', accepted', staged, ?_, by simpa using enters, ?_, ?_⟩
  · -- the keys that stay, beside the consumed ones before and the outputs after
    let rest := leaves.keys.filter fun k => decide (k ∉ t.consumes)
    have before : leaves.keys.Perm (t.consumes ++ rest) := by
      rw [perm_ext_iff_of_nodup (nodup_keys _)]
      · intro k
        by_cases spent : k ∈ t.consumes
        · simp [spent, there k spent]
        · simp [rest, spent]
      · rw [nodup_append]
        refine ⟨consumed.nodup, (nodup_keys _).filter _, ?_⟩
        rintro a mem b inRest rfl
        have := (mem_filter.mp inRest).2
        simp [mem] at this
    have exchanged := (Tiles.perm tiled before).exchange consumed produced
    refine exchanged.perm ?_
    rw [perm_ext_iff_of_nodup exchanged.nodup (nodup_keys _)]
    intro k
    rw [mem_append, Std.ExtTreeMap.mem_keys]
    constructor
    · rintro (output | stays)
      · obtain ⟨o, mem, rfl⟩ := mem_outputKeys.mp output
        exact mem_leaves_iff.mpr ⟨o, enters o mem⟩
      · obtain ⟨old, kept⟩ := mem_filter.mp stays
        obtain ⟨leaf, found⟩ := mem_leaves_iff.mp (Std.ExtTreeMap.mem_keys.mp old)
        exact mem_leaves_iff.mpr ⟨leaf, keeps found (by simpa using kept)⟩
    · intro mem
      obtain ⟨leaf, found⟩ := mem_leaves_iff.mp mem
      rcases sound found with ⟨output, rfl⟩ | ⟨old, kept⟩
      · exact .inl (mem_outputKeys.mpr ⟨leaf, output, rfl⟩)
      · refine .inr (mem_filter.mpr ⟨?_, by simpa using kept⟩)
        exact Std.ExtTreeMap.mem_keys.mpr (mem_leaves_iff.mpr ⟨leaf, old⟩)
  · intro k spent output
    simp only [mem_singleton, exists_eq_left, forall_eq] at spent output
    cases found : leaves'[k]? with
    | none => rfl
    | some leaf =>
      rcases sound found with ⟨mem, rfl⟩ | ⟨-, kept⟩
      · exact absurd (mem_outputKeys.mpr ⟨leaf, mem, rfl⟩) output
      · exact absurd spent kept
  · intro k kept output
    simp only [mem_singleton, forall_eq] at kept output
    cases found : leaves[k]? with
    | some leaf => exact keeps found kept
    | none =>
      cases found' : leaves'[k]? with
      | none => rfl
      | some leaf =>
        rcases sound found' with ⟨mem, rfl⟩ | ⟨old, -⟩
        · exact absurd (mem_outputKeys.mpr ⟨leaf, mem, rfl⟩) output
        · rw [found] at old
          cases old

theorem StagedAll.mem_of_unspent (h : StagedAll workchains ts leaves leaves')
    (unspent : ∀ t ∈ ts, k ∉ t.consumes) (mem : k ∈ leaves) : k ∈ leaves' := by
  by_cases output : ∃ t ∈ ts, k ∈ t.outputKeys
  · obtain ⟨t, ht, output⟩ := output
    obtain ⟨o, ho, rfl⟩ := mem_outputKeys.mp output
    exact mem_leaves_iff.mpr ⟨o, h.enters t ht o ho⟩
  · push Not at output
    rw [mem_leaves_iff, h.others k unspent output]
    exact mem_leaves_iff.mp mem

/-- What the next transitions consume is untouched by one that consumes none of it. -/
theorem StagedAll.untouched (h : StagedAll workchains [t] leaves leaves') (ex : Exchanges t)
    (tiled : Tiled workchains leaves) (there : ∀ k ∈ t.consumes, k ∈ leaves)
    (mem : k ∈ leaves) (unspent : k ∉ t.consumes) :
    k ∉ t.outputKeys ∧ leaves'[k]? = leaves[k]? := by
  have apart : k ∉ t.outputKeys := fun output =>
    unspent (ex.mem_consumes tiled there output mem)
  exact ⟨apart, h.others k (by simpa using unspent) (by simpa using apart)⟩

theorem StagedAll.cons (first : StagedAll workchains [t] leaves middle)
    (rest : StagedAll workchains ts middle leaves')
    (apart : ∀ k ∈ t.outputKeys, ∀ t' ∈ ts, k ∉ t'.consumes ∧ k ∉ t'.outputKeys) :
    StagedAll workchains (t :: ts) leaves leaves' := by
  refine ⟨rest.tiled, ?_, ?_, ?_⟩
  · intro t' mem o output
    rcases mem_cons.mp mem with rfl | later
    · have key := mem_outputKeys.mpr ⟨o, output, rfl⟩
      rw [rest.others _ (fun t' ht' => (apart _ key t' ht').1) fun t' ht' => (apart _ key t' ht').2]
      exact first.enters t' (by simp) o output
    · exact rest.enters t' later o output
  · intro k spent output
    have noOutput : ∀ t' ∈ ts, k ∉ t'.outputKeys := fun t' ht' =>
      output t' (mem_cons_of_mem _ ht')
    by_cases later : ∃ t' ∈ ts, k ∈ t'.consumes
    · exact rest.gone k later noOutput
    · push Not at later
      rw [rest.others k later noOutput]
      apply first.gone k _ (by simpa using output t mem_cons_self)
      obtain ⟨t', mem, consumed⟩ := spent
      rcases mem_cons.mp mem with rfl | inRest
      · exact ⟨t', by simp, consumed⟩
      · exact absurd consumed (later t' inRest)
  · intro k unspent output
    rw [rest.others k (fun t' ht' => unspent t' (mem_cons_of_mem _ ht')) fun t' ht' =>
      output t' (mem_cons_of_mem _ ht')]
    exact first.others k (by simpa using unspent t mem_cons_self)
      (by simpa using output t mem_cons_self)

/-- What it takes to stage some transitions on a tiled map: each exchanges leaves that are there,
and no leaf is consumed twice. -/
structure Stageable (leaves : LeafMap) (ts : List ShardRegistryTransition) : Prop where
  exchanges : ∀ t ∈ ts, Exchanges t
  there : ∀ t ∈ ts, ∀ k ∈ t.consumes, k ∈ leaves
  once : (ts.flatMap (·.consumes)).Nodup

namespace Stageable

theorem perm (h : Stageable leaves ts) (same : ts.Perm ts') : Stageable leaves ts' where
  exchanges t mem := h.exchanges t (same.mem_iff.mpr mem)
  there t mem := h.there t (same.mem_iff.mpr mem)
  once := (same.flatMap_right _).nodup_iff.mp h.once

section

variable (h : Stageable leaves (t :: ts))
include h

theorem head : Exchanges t ∧ ∀ k ∈ t.consumes, k ∈ leaves :=
  ⟨h.exchanges t mem_cons_self, h.there t mem_cons_self⟩

theorem unspent {t' : ShardRegistryTransition} (mem : t' ∈ ts) (later : k ∈ t'.consumes) :
    k ∈ leaves ∧ k ∉ t.consumes := by
  refine ⟨h.there t' (mem_cons_of_mem _ mem) k later, ?_⟩
  have once := h.once
  rw [flatMap_cons, nodup_append] at once
  intro spent
  exact once.2.2 k spent k (mem_flatMap.mpr ⟨t', mem, later⟩) rfl

theorem tail (first : StagedAll workchains [t] leaves middle) : Stageable middle ts where
  exchanges t' mem := h.exchanges t' (mem_cons_of_mem _ mem)
  there t' mem k later := by
    obtain ⟨there, unspent⟩ := h.unspent mem later
    exact first.mem_of_unspent (by simpa using unspent) there
  once := by
    have once := h.once
    rw [flatMap_cons, nodup_append] at once
    exact once.2.1

theorem apart (tiled : Tiled workchains leaves) (first : StagedAll workchains [t] leaves middle) :
    ∀ k ∈ t.outputKeys, ∀ t' ∈ ts, k ∉ t'.consumes ∧ k ∉ t'.outputKeys := by
  intro k output t' mem
  obtain ⟨ex, there⟩ := h.head
  have notConsumed : k ∉ t'.consumes := by
    intro later
    obtain ⟨old, unspent⟩ := h.unspent mem later
    exact (first.untouched ex tiled there old unspent).1 output
  refine ⟨notConsumed, ?_⟩
  intro output'
  have tail := h.tail first
  apply notConsumed
  apply (tail.exchanges t' mem).mem_consumes first.tiled (tail.there t' mem) output'
  obtain ⟨o, inside, rfl⟩ := mem_outputKeys.mp output
  exact mem_leaves_iff.mpr ⟨o, first.enters t (by simp) o inside⟩

end

end Stageable

theorem stage_all (tiled : Tiled workchains leaves) (h : Stageable leaves ts) :
    ∃ leaves' accepted', ts.foldlM stageTransition (leaves, accepted) = .ok (leaves', accepted') ∧
      StagedAll workchains ts leaves leaves' ∧
      ∀ k : ShardRegistryKey, accepted'[k]? =
        if ∃ t ∈ ts, k ∈ t.outputKeys then leaves'[k]? else accepted[k]? := by
  induction ts generalizing leaves accepted with
  | nil =>
    refine ⟨leaves, accepted, rfl, ⟨tiled, by simp, by simp, by simp⟩, by simp⟩
  | cons t ts ih =>
    obtain ⟨ex, there⟩ := h.head
    obtain ⟨middle, entered, staged, first⟩ := stage_one accepted ex tiled there
    obtain ⟨leaves', accepted', run, rest, looks⟩ := ih first.tiled (h.tail first)
    have apart := h.apart tiled first
    refine ⟨leaves', accepted', ?_, first.cons rest apart, ?_⟩
    · exact bind_eq_ok.mpr ⟨_, staged, run⟩
    · intro k
      have own : entered[k]? = if k ∈ t.outputKeys then middle[k]? else accepted[k]? :=
        stageOutputs_accepted staged
      rw [looks k, own]
      by_cases later : ∃ t' ∈ ts, k ∈ t'.outputKeys
      · have any : ∃ t' ∈ t :: ts, k ∈ t'.outputKeys := by
          obtain ⟨t', mem, output⟩ := later
          exact ⟨t', mem_cons_of_mem _ mem, output⟩
        rw [if_pos later, if_pos any]
      · by_cases own : k ∈ t.outputKeys
        · rw [if_neg later, if_pos own, if_pos ⟨t, mem_cons_self, own⟩]
          exact (rest.others k (fun t' ht' => (apart k own t' ht').1)
            fun t' ht' => (apart k own t' ht').2).symm
        · have none_ : ¬ ∃ t' ∈ t :: ts, k ∈ t'.outputKeys := by
            rintro ⟨t', mem, output⟩
            rcases mem_cons.mp mem with rfl | inRest
            · exact own output
            · exact later ⟨t', inRest, output⟩
          rw [if_neg later, if_neg own, if_neg none_]

/-- The leaves that come out depend only on which transitions were staged. -/
theorem StagedAll.unique {leaves'' : LeafMap}
    (h : StagedAll workchains ts leaves leaves') (h' : StagedAll workchains ts' leaves leaves'')
    (same : ∀ t, t ∈ ts ↔ t ∈ ts') : leaves' = leaves'' := by
  apply Std.ExtTreeMap.ext_getElem?
  intro k
  by_cases output : ∃ t ∈ ts, k ∈ t.outputKeys
  · obtain ⟨t, mem, output⟩ := output
    obtain ⟨o, inside, rfl⟩ := mem_outputKeys.mp output
    rw [h.enters t mem o inside, h'.enters t ((same t).mp mem) o inside]
  · push Not at output
    have output' : ∀ t ∈ ts', k ∉ t.outputKeys := fun t mem => output t ((same t).mpr mem)
    by_cases spent : ∃ t ∈ ts, k ∈ t.consumes
    · have spent' : ∃ t ∈ ts', k ∈ t.consumes := by
        obtain ⟨t, mem, consumed⟩ := spent
        exact ⟨t, (same t).mp mem, consumed⟩
      rw [h.gone k spent output, h'.gone k spent' output']
    · push Not at spent
      rw [h.others k spent output, h'.others k (fun t mem => spent t ((same t).mpr mem)) output']

end Staging

end Gton.Collator
