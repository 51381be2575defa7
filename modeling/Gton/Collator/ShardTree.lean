import Gton.Collator.ShardTransitions

/-!
# The trees of a dictionary

A workchain's tree can be built exactly when its leaves cover every account prefix once. Reading
the tree back gives the same leaves.
-/

namespace Gton.Collator

open Gton.Shard
open Gton.Lib.Bits
open Gton.Lib.Tiling
open Gton.Lib.Fallible
open List

/-- The shards cover every account prefix, and no prefix twice. -/
structure Partition (shards : List (BitVec 64)) : Prop where
  depth : ∀ s ∈ shards, s ≠ 0#64 ∧ prefixLength s ≤ maxPrefixLength
  disjoint : shards.Pairwise fun s t => ∀ x, ¬ (x ∈ cover s ∧ x ∈ cover t)
  covering : ∀ x, ∃ s ∈ shards, x ∈ cover s

theorem partition_iff_tiles {shards : List (BitVec 64)} :
    Partition shards ↔ Tiles cover (cover root) shards := by
  have apart (s t : BitVec 64) :
      (∀ x, ¬ (x ∈ cover s ∧ x ∈ cover t)) ↔ Disjoint (cover s) (cover t) := by
    rw [Set.disjoint_left]
    exact ⟨fun h x hs ht => h x ⟨hs, ht⟩, fun h x both => h both.1 both.2⟩
  constructor
  · intro h
    refine ⟨fun s mem => cover_nonempty_iff.mpr (h.depth s mem).1, ?_, ?_⟩
    · exact h.disjoint.imp fun {s t} => (apart s t).mp
    · intro x
      simpa [cover_root] using h.covering x
  · intro h
    refine ⟨?_, ?_, ?_⟩
    · intro s mem
      refine ⟨cover_nonempty_iff.mp (h.inhabited s mem), ?_⟩
      unfold prefixLength maxPrefixLength
      omega
    · exact h.disjoint.imp fun {s t} => (apart s t).mpr
    · intro x
      exact (h.fills x).mp (by simp [cover_root])

/-! ## Building a tree -/

/-- What the leaf of a tree covers. -/
def ShardRegistryLeaf.region (leaf : ShardRegistryLeaf) : Set (BitVec 64) := cover leaf.block.shard

variable {leaf : ShardRegistryLeaf} {tree : Cell}

section Tree

variable {x : BitVec 64} {leaves : List ShardRegistryLeaf}
  {recurse : BitVec 64 → List ShardRegistryLeaf → Except Fault Cell} {level : Nat}

theorem leafCell_eq_ok {descriptor : Cell} : leafCell x descriptor = .ok tree ↔
    descriptor.Roomy ∧ tree = .mk false (false :: descriptor.bits) descriptor.refs := by
  unfold leafCell
  split
  next roomy =>
    simp [roomy, eq_comm]
  next full =>
    simp [full]

theorem Tiles.inside (h : Tiles ShardRegistryLeaf.region (cover x) leaves)
    (mem : leaf ∈ leaves) : contains x leaf.block.shard = true := by
  have tagged := cover_nonempty_iff.mp (h.inhabited leaf mem)
  exact (contains_iff_cover_subset tagged).mpr (h.subset mem)

/-- How a tree over more than one leaf is built. -/
structure Forked (recurse : BitVec 64 → List ShardRegistryLeaf → Except Fault Cell)
    (x : BitVec 64) (leaves : List ShardRegistryLeaf) (tree : Cell) : Prop where
  splits : x ≠ 0#64 ∧ 0 < trailingZeros x
  inside : ∀ leaf ∈ leaves, contains (getChild x true) leaf.block.shard = false →
    contains (getChild x false) leaf.block.shard = true
  subtrees : ∃ left right,
    recurse (getChild x true)
      (leaves.filter fun leaf => contains (getChild x true) leaf.block.shard) = .ok left ∧
    recurse (getChild x false)
      (leaves.filter fun leaf => !contains (getChild x true) leaf.block.shard) = .ok right ∧
    tree = forkCell left right

theorem buildNode_nil : buildNode recurse x [] ≠ .ok tree := by
  unfold buildNode
  simp

/-- The two ways a node is built. -/
theorem buildNode_eq_ok (empty : ∀ {y tree}, recurse y [] ≠ .ok tree) :
    buildNode recurse x leaves = .ok tree ↔
      (∃ leaf, leaves = [leaf] ∧ leaf.block.shard = x ∧ leafCell x leaf.descriptor = .ok tree) ∨
      ((∀ leaf ∈ leaves, leaf.block.shard ≠ x) ∧ Forked recurse x leaves tree) := by
  match leaves with
  | [] =>
    constructor
    · intro h
      exact absurd h buildNode_nil
    · rintro (⟨leaf, no, -⟩ | ⟨-, forked⟩)
      · cases no
      · obtain ⟨left, right, built, -⟩ := forked.subtrees
        exact absurd built empty
  | first :: rest =>
    unfold buildNode
    by_cases single : rest = [] ∧ first.block.shard = x
    · obtain ⟨rfl, here⟩ := single
      simp only [here, and_self, if_true]
      constructor
      · intro h
        exact .inl ⟨first, rfl, here, h⟩
      · rintro (⟨leaf, same, -, h⟩ | ⟨apart, -⟩)
        · cases same
          exact h
        · exact absurd here (apart first (by simp))
    · simp only [if_neg single]
      by_cases whole : (first :: rest).any (·.block.shard == x) = true
      · rw [if_pos whole]
        obtain ⟨leaf, mem, here⟩ := any_eq_true.mp whole
        rw [beq_iff_eq] at here
        constructor
        · intro h
          cases h
        · rintro (⟨leaf', same, here', -⟩ | ⟨apart, -⟩)
          · cases same
            exact absurd ⟨rfl, here'⟩ single
          · exact absurd here (apart leaf mem)
      · rw [if_neg whole]
        have apart : ∀ leaf ∈ first :: rest, leaf.block.shard ≠ x := by
          intro leaf mem here
          exact whole (any_eq_true.mpr ⟨leaf, mem, by simp [here]⟩)
        simp only [bind_eq_ok, childOf_eq_ok, child_eq_some]
        constructor
        · rintro ⟨_, ⟨ne, pos, rfl⟩, _, ⟨-, -, rfl⟩, h⟩
          refine .inr ⟨apart, ?_⟩
          split at h
          · cases h
          next covered =>
            rw [find?_eq_none] at covered
            simp only [bind_eq_ok] at h
            obtain ⟨_, -, left, hl, right, hr, same⟩ := h
            cases same
            refine ⟨⟨ne, pos⟩, ?_, left, right, hl, hr, rfl⟩
            intro leaf mem out
            have := covered leaf mem
            simpa [out] using this
        · rintro (⟨leaf, same, here, -⟩ | ⟨-, forked⟩)
          · cases same
            exact absurd here (apart first (by simp))
          · obtain ⟨ne, pos⟩ := forked.splits
            obtain ⟨left, right, hl, hr, rfl⟩ := forked.subtrees
            refine ⟨_, ⟨ne, pos, rfl⟩, _, ⟨ne, pos, rfl⟩, ?_⟩
            have covered : (first :: rest).find? (fun leaf =>
                !contains (getChild x true) leaf.block.shard &&
                  !contains (getChild x false) leaf.block.shard) = none := by
              rw [find?_eq_none]
              intro leaf mem
              cases side : contains (getChild x true) leaf.block.shard with
              | true => simp
              | false => simp [forked.inside leaf mem side]
            have some_ {p : ShardRegistryLeaf → Bool} {y : BitVec 64} {tree : Cell}
                (built : recurse y ((first :: rest).filter p) = .ok tree) :
                (!((first :: rest).filter p).isEmpty) = true := by
              cases none_ : (first :: rest).filter p with
              | nil =>
                rw [none_] at built
                exact absurd built empty
              | cons => rfl
            rw [covered]
            refine bind_eq_ok.mpr ⟨(), ?_, ?_⟩
            · rw [require_eq_ok, some_ hl, some_ hr]
              rfl
            · exact bind_eq_ok.mpr ⟨left, hl, bind_eq_ok.mpr ⟨right, hr, rfl⟩⟩

theorem buildTree_nil : buildTree level x [] ≠ .ok tree := by
  cases level <;> exact buildNode_nil

theorem buildTree_eq_ok :
    buildTree level x leaves = .ok tree ↔
      (∃ leaf, leaves = [leaf] ∧ leaf.block.shard = x ∧ leafCell x leaf.descriptor = .ok tree) ∨
      ((∀ leaf ∈ leaves, leaf.block.shard ≠ x) ∧ ∃ below, level = below + 1 ∧
        Forked (buildTree below) x leaves tree) := by
  cases level with
  | zero =>
    rw [buildTree, buildNode_eq_ok (by simp)]
    apply or_congr_right
    apply and_congr_right
    intro _
    constructor
    · intro forked
      obtain ⟨left, right, no, -⟩ := forked.subtrees
      cases no
    · rintro ⟨below, no, -⟩
      cases no
  | succ below =>
    rw [buildTree, buildNode_eq_ok buildTree_nil]
    apply or_congr_right
    apply and_congr_right
    intro _
    constructor
    · intro forked
      exact ⟨below, rfl, forked⟩
    · rintro ⟨_, same, forked⟩
      cases same
      exact forked

theorem tiles_single_iff (mem : leaf ∈ leaves) (ne : x ≠ 0#64) (here : leaf.block.shard = x) :
    Tiles ShardRegistryLeaf.region (cover x) leaves ↔ leaves = [leaf] := by
  have whole : leaf.region = cover x := by
    unfold ShardRegistryLeaf.region
    rw [here]
  constructor
  · intro h
    exact h.eq_single mem whole
  · rintro rfl
    rw [← whole]
    apply Tiles.single
    rw [whole]
    exact cover_nonempty_iff.mpr ne

/-- The leaves strictly inside a shard tile it when those on either side tile the children. -/
theorem tiles_fork_iff (ne : x ≠ 0#64) (apart : ∀ leaf ∈ leaves, leaf.block.shard ≠ x) :
    Tiles ShardRegistryLeaf.region (cover x) leaves ↔
      0 < trailingZeros x ∧
      (∀ leaf ∈ leaves, contains (getChild x true) leaf.block.shard = false →
        contains (getChild x false) leaf.block.shard = true) ∧
      Tiles ShardRegistryLeaf.region (cover (getChild x true))
        (leaves.filter fun leaf => contains (getChild x true) leaf.block.shard) ∧
      Tiles ShardRegistryLeaf.region (cover (getChild x false))
        (leaves.filter fun leaf => !contains (getChild x true) leaf.block.shard) := by
  have cut (pos : 0 < trailingZeros x)
      (inside : ∀ leaf ∈ leaves, contains (getChild x true) leaf.block.shard = false →
        contains (getChild x false) leaf.block.shard = true) :
      Tiles ShardRegistryLeaf.region (cover (getChild x true) ∪ cover (getChild x false)) leaves ↔
        _ :=
    tiles_split (disjoint_children ne pos)
      (fun leaf _ side => cover_subset_of_contains (c := leaf.block.shard) side)
      (fun leaf mem side => cover_subset_of_contains (inside leaf mem side))
  constructor
  · intro h
    have child (leaf : ShardRegistryLeaf) (mem : leaf ∈ leaves) :=
      contains_child_of_ne (Tiles.inside h mem) (apart leaf mem)
    obtain ⟨leaf, mem⟩ := exists_mem_of_ne_nil leaves (h.ne_nil (cover_nonempty_iff.mpr ne))
    have pos := (child leaf mem).1
    have inside : ∀ leaf ∈ leaves, contains (getChild x true) leaf.block.shard = false →
        contains (getChild x false) leaf.block.shard = true := by
      intro leaf mem out
      rcases (child leaf mem).2 with left | right
      · rw [left] at out
        cases out
      · exact right
    rw [cover_children ne pos] at h
    exact ⟨pos, inside, (cut pos inside).mp h⟩
  · rintro ⟨pos, inside, halves⟩
    rw [cover_children ne pos]
    exact (cut pos inside).mpr halves

theorem ok_iff_of_leaf (ne : x ≠ 0#64) (whole : ∃ leaf ∈ leaves, leaf.block.shard = x) :
    (∃ tree, buildTree level x leaves = .ok tree) ↔
      Tiles ShardRegistryLeaf.region (cover x) leaves ∧ ∀ leaf ∈ leaves, leaf.descriptor.Roomy := by
  obtain ⟨leaf, mem, here⟩ := whole
  rw [tiles_single_iff mem ne here]
  constructor
  · rintro ⟨tree, h⟩
    rcases buildTree_eq_ok.mp h with ⟨only, rfl, -, stored⟩ | ⟨apart, -⟩
    · rw [mem_singleton.mp mem]
      refine ⟨rfl, ?_⟩
      simpa using (leafCell_eq_ok.mp stored).1
    · exact absurd here (apart leaf mem)
  · rintro ⟨rfl, roomy⟩
    exact ⟨_, buildTree_eq_ok.mpr (.inl ⟨leaf, rfl, here,
      leafCell_eq_ok.mpr ⟨roomy leaf mem, rfl⟩⟩)⟩

/-- A tree over a shard is built exactly when the leaves tile the shard and every descriptor fits
behind its tag bit. -/
theorem buildTree_ok_iff_tiles (ne : x ≠ 0#64) (mark : trailingZeros x = level) :
    (∃ tree, buildTree level x leaves = .ok tree) ↔
      Tiles ShardRegistryLeaf.region (cover x) leaves ∧ ∀ leaf ∈ leaves, leaf.descriptor.Roomy := by
  induction level generalizing x leaves with
  | zero =>
    by_cases whole : ∃ leaf ∈ leaves, leaf.block.shard = x
    · exact ok_iff_of_leaf ne whole
    · push Not at whole
      rw [tiles_fork_iff ne whole]
      constructor
      · rintro ⟨tree, h⟩
        rcases buildTree_eq_ok.mp h with ⟨leaf, rfl, here, -⟩ | ⟨-, below, no, -⟩
        · exact absurd here (whole leaf (by simp))
        · cases no
      · rintro ⟨⟨pos, -⟩, -⟩
        omega
  | succ below ih =>
    by_cases whole : ∃ leaf ∈ leaves, leaf.block.shard = x
    · exact ok_iff_of_leaf ne whole
    · push Not at whole
      rw [tiles_fork_iff ne whole]
      have pos : 0 < trailingZeros x := by omega
      have half (left : Bool) {leaves : List ShardRegistryLeaf} :
          (∃ tree, buildTree below (getChild x left) leaves = .ok tree) ↔
            Tiles ShardRegistryLeaf.region (cover (getChild x left)) leaves ∧
              ∀ leaf ∈ leaves, leaf.descriptor.Roomy :=
        ih (getChild_ne_zero ne pos) (by rw [trailingZeros_getChild ne pos, mark]; rfl)
      constructor
      · rintro ⟨tree, h⟩
        rcases buildTree_eq_ok.mp h with ⟨leaf, rfl, here, -⟩ | ⟨-, _, level, forked⟩
        · exact absurd here (whole leaf (by simp))
        · cases level
          obtain ⟨left, right, hl, hr, -⟩ := forked.subtrees
          obtain ⟨tl, rl⟩ := (half true).mp ⟨left, hl⟩
          obtain ⟨tr, rr⟩ := (half false).mp ⟨right, hr⟩
          refine ⟨⟨pos, forked.inside, tl, tr⟩, ?_⟩
          intro leaf mem
          cases side : contains (getChild x true) leaf.block.shard with
          | true => exact rl leaf (mem_filter.mpr ⟨mem, side⟩)
          | false => exact rr leaf (mem_filter.mpr ⟨mem, by simp [side]⟩)
      · rintro ⟨⟨-, inside, tl, tr⟩, roomy⟩
        obtain ⟨left, hl⟩ := (half true).mpr ⟨tl, fun leaf mem =>
          roomy leaf (mem_of_mem_filter mem)⟩
        obtain ⟨right, hr⟩ := (half false).mpr ⟨tr, fun leaf mem =>
          roomy leaf (mem_of_mem_filter mem)⟩
        exact ⟨forkCell left right, buildTree_eq_ok.mpr
          (.inr ⟨whole, below, rfl, ⟨ne, pos⟩, inside, left, right, hl, hr, rfl⟩)⟩

end Tree

/-! ## Reading a tree back -/

section ReadBack

variable {tlb : Codec} {workchain : BitVec 32} {before after : LeafMap}

/-- Some leaves entered a map, each under its own key. -/
structure Entered (leaves : List ShardRegistryLeaf) (before after : LeafMap) : Prop where
  present : ∀ leaf ∈ leaves, after[shardTopKey leaf.block]? = some leaf
  others : ∀ k, (∀ leaf ∈ leaves, shardTopKey leaf.block ≠ k) → after[k]? = before[k]?

/-- A leaf of a workchain that is what its descriptor says. -/
def LeafOf (tlb : Codec) (workchain : BitVec 32) (leaf : ShardRegistryLeaf) : Prop :=
  leaf.block.workchain = workchain ∧ leaf.Decoded tlb (shardTopKey leaf.block)

theorem parse_leafCell (own : LeafOf tlb workchain leaf)
    (fresh : before[shardTopKey leaf.block]? = none) :
    ∃ after, parseShardRegistryTree tlb workchain
      (.mk false (false :: leaf.descriptor.bits) leaf.descriptor.refs) leaf.block.shard before =
        .ok after ∧ Entered [leaf] before after := by
  obtain ⟨rfl, decoded⟩ := own
  have ordinary : leaf.descriptor = .mk false leaf.descriptor.bits leaf.descriptor.refs := by
    obtain ⟨fields, parsed, -⟩ := decodeShardRegistryLeaf_eq_ok.mp decoded
    have flag := (parseShardDescriptorFields_eq_ok.mp parsed).1
    cases cell : leaf.descriptor with
    | mk special bits refs =>
      rw [cell] at flag
      cases flag
      rfl
  refine ⟨before.insert (shardTopKey leaf.block) leaf, ?_, ?_, ?_⟩
  · unfold parseShardRegistryTree
    rw [← ordinary]
    refine bind_eq_ok.mpr ⟨leaf, decoded, bind_eq_ok.mpr ⟨(), ?_, rfl⟩⟩
    rw [require_eq_ok, Bool.not_eq_true', Std.ExtTreeMap.contains_eq_isSome_getElem?, fresh]
    rfl
  · simp
  · intro k apart
    rw [Std.ExtTreeMap.getElem?_insert, if_neg]
    simpa using apart

theorem Entered.join {leaves : List ShardRegistryLeaf} {p : ShardRegistryLeaf → Bool}
    {middle : LeafMap} (left : Entered (leaves.filter p) before middle)
    (right : Entered (leaves.filter (!p ·)) middle after)
    (apart : ∀ l ∈ leaves, ∀ r ∈ leaves, p l = true → p r = false →
      shardTopKey r.block ≠ shardTopKey l.block) : Entered leaves before after := by
  refine ⟨?_, ?_⟩
  · intro leaf mem
    cases side : p leaf with
    | true =>
      rw [right.others]
      · exact left.present leaf (mem_filter.mpr ⟨mem, side⟩)
      · intro other inRight
        obtain ⟨mem', side'⟩ := mem_filter.mp inRight
        exact apart leaf mem other mem' side (by simpa using side')
    | false => exact right.present leaf (mem_filter.mpr ⟨mem, by simp [side]⟩)
  · intro k none_
    rw [right.others k fun leaf mem => none_ leaf (mem_of_mem_filter mem),
      left.others k fun leaf mem => none_ leaf (mem_of_mem_filter mem)]

theorem parse_buildTree {level : Nat} {x : BitVec 64} {leaves : List ShardRegistryLeaf}
    (built : buildTree level x leaves = .ok tree) (own : ∀ leaf ∈ leaves, LeafOf tlb workchain leaf)
    (fresh : ∀ leaf ∈ leaves, before[shardTopKey leaf.block]? = none) :
    ∃ after, parseShardRegistryTree tlb workchain tree x before = .ok after ∧
      Entered leaves before after := by
  induction level using Nat.strongRecOn generalizing x leaves tree before with
  | ind level ih =>
    rcases buildTree_eq_ok.mp built with ⟨leaf, rfl, rfl, stored⟩ | ⟨-, below, rfl, forked⟩
    · obtain ⟨-, rfl⟩ := leafCell_eq_ok.mp stored
      exact parse_leafCell (own leaf (by simp)) (fresh leaf (by simp))
    · have ih := @ih below (Nat.lt_succ_self below)
      obtain ⟨ne, pos⟩ := forked.splits
      obtain ⟨left, right, hl, hr, rfl⟩ := forked.subtrees
      obtain ⟨middle, parsedLeft, entered⟩ := ih hl
        (fun leaf mem => own leaf (mem_of_mem_filter mem))
        (fun leaf mem => fresh leaf (mem_of_mem_filter mem))
      have apart : ∀ l ∈ leaves, ∀ r ∈ leaves,
          contains (getChild x true) l.block.shard = true →
          contains (getChild x true) r.block.shard = false →
          shardTopKey r.block ≠ shardTopKey l.block := by
        intro l _ r _ inside outside same
        have shard := congrArg ShardRegistryKey.shard same
        rw [show r.block.shard = l.block.shard from shard, inside] at outside
        cases outside
      have still : ∀ leaf ∈ leaves.filter (!contains (getChild x true) ·.block.shard),
          middle[shardTopKey leaf.block]? = none := by
        intro leaf mem
        obtain ⟨inside, side⟩ := mem_filter.mp mem
        rw [entered.others]
        · exact fresh leaf inside
        · intro other inLeft same
          obtain ⟨mem', side'⟩ := mem_filter.mp inLeft
          exact apart other mem' leaf inside side' (by simpa using side) same.symm
      obtain ⟨after, parsedRight, entered'⟩ := ih hr
        (fun leaf mem => own leaf (mem_of_mem_filter mem)) still
      refine ⟨after, ?_, entered.join entered' apart⟩
      unfold forkCell parseShardRegistryTree
      simp only [bind_eq_ok, childOf_eq_ok, child_eq_some]
      exact ⟨_, ⟨ne, pos, rfl⟩, _, ⟨ne, pos, rfl⟩, middle, parsedLeft, parsedRight⟩

end ReadBack

/-! ## The dictionary -/

section Dictionary

variable {tlb : Codec} {leaves : LeafMap} {shardHashes : ShardHashes} {all : List ShardRegistryLeaf}
  {workchain : BitVec 32}

theorem mem_sortedShardRegistryLeaves :
    leaf ∈ sortedShardRegistryLeaves leaves ↔ ∃ k : ShardRegistryKey, leaves[k]? = some leaf := by
  unfold sortedShardRegistryLeaves
  rw [mem_map]
  constructor
  · rintro ⟨⟨k, l⟩, mem, rfl⟩
    exact ⟨k, Std.ExtTreeMap.mem_toList_iff_getElem?_eq_some.mp mem⟩
  · rintro ⟨k, found⟩
    exact ⟨(k, leaf), Std.ExtTreeMap.mem_toList_iff_getElem?_eq_some.mpr found, rfl⟩

theorem mem_workchainLeaves :
    leaf ∈ workchainLeaves all workchain ↔ leaf ∈ all ∧ leaf.block.workchain = workchain := by
  unfold workchainLeaves
  rw [mem_insertionSort, mem_filter, beq_iff_eq]

theorem mem_workchainsOf :
    workchain ∈ workchainsOf all ↔ ∃ leaf ∈ all, leaf.block.workchain = workchain := by
  unfold workchainsOf
  rw [mem_insertionSort, mem_dedup, mem_map]

theorem storeWorkchains_spec {workchains : List (BitVec 32)} {result result' : ShardHashes}
    (h : workchains.foldlM (storeWorkchain all) result = .ok result') :
    (∀ w ∈ workchains, ∃ tree, buildWorkchainShardTree root (workchainLeaves all w) = .ok tree ∧
      result'[w]? = some (.mk false [] [tree])) ∧
    ∀ w, w ∉ workchains → result'[w]? = result[w]? := by
  induction workchains generalizing result with
  | nil =>
    cases h
    simp
  | cons w workchains ih =>
    rw [foldlM_cons, bind_eq_ok] at h
    obtain ⟨middle, step, rest⟩ := h
    obtain ⟨tree, built, same⟩ := bind_eq_ok.mp step
    cases same
    obtain ⟨stored, others⟩ := ih rest
    refine ⟨?_, ?_⟩
    · intro w' mem
      by_cases later : w' ∈ workchains
      · exact stored w' later
      · obtain rfl : w' = w := by simpa [later] using mem
        refine ⟨tree, built, ?_⟩
        rw [others w' later, Std.ExtTreeMap.getElem?_insert]
        simp
    · intro w' out
      rw [others w' fun mem => out (mem_cons_of_mem _ mem), Std.ExtTreeMap.getElem?_insert,
        if_neg]
      rw [Std.LawfulEqCmp.compare_eq_iff_eq]
      rintro rfl
      exact out mem_cons_self

theorem buildShardHashesDictionary_spec (h : buildShardHashesDictionary leaves = .ok shardHashes)
    (w : BitVec 32) :
    (∃ tree, buildWorkchainShardTree root
        (workchainLeaves (sortedShardRegistryLeaves leaves) w) = .ok tree ∧
      shardHashes[w]? = some (.mk false [] [tree])) ∨
    ((∀ leaf ∈ sortedShardRegistryLeaves leaves, leaf.block.workchain ≠ w) ∧
      shardHashes[w]? = none) := by
  obtain ⟨stored, others⟩ := storeWorkchains_spec h
  by_cases mem : w ∈ workchainsOf (sortedShardRegistryLeaves leaves)
  · exact .inl (stored w mem)
  · refine .inr ⟨?_, ?_⟩
    · intro leaf inside here
      exact mem (mem_workchainsOf.mpr ⟨leaf, inside, here⟩)
    · rw [others w mem]
      exact Std.ExtTreeMap.getElem?_empty

/-- Every leaf of a map is what its descriptor decodes to under its key. -/
def WellFormed (tlb : Codec) (leaves : LeafMap) : Prop :=
  ∀ {k : ShardRegistryKey} {leaf : ShardRegistryLeaf}, leaves[k]? = some leaf → leaf.Decoded tlb k

/-- No leaf belongs to a workchain the registry refuses. -/
def Routable (leaves : LeafMap) : Prop :=
  ∀ {k : ShardRegistryKey} {leaf : ShardRegistryLeaf}, leaves[k]? = some leaf →
    k.workchain ≠ masterchainWorkchainID ∧ k.workchain ≠ invalidWorkchainID

theorem parseWorkchain_spec (wf : WellFormed tlb leaves) (routable : Routable leaves)
    {w : BitVec 32} {before : LeafMap}
    (some_ : ∃ leaf ∈ sortedShardRegistryLeaves leaves, leaf.block.workchain = w)
    (built : buildWorkchainShardTree root
      (workchainLeaves (sortedShardRegistryLeaves leaves) w) = .ok tree)
    (fresh : ∀ k : ShardRegistryKey, k.workchain = w → before[k]? = none) :
    ∃ after, parseWorkchain tlb before (w, .mk false [] [tree]) = .ok after ∧
      ∀ k : ShardRegistryKey, after[k]? = if k.workchain = w then leaves[k]? else before[k]? := by
  have mine {leaf : ShardRegistryLeaf}
      (mem : leaf ∈ workchainLeaves (sortedShardRegistryLeaves leaves) w) :
      leaves[shardTopKey leaf.block]? = some leaf ∧ leaf.block.workchain = w := by
    obtain ⟨inside, here⟩ := mem_workchainLeaves.mp mem
    obtain ⟨k, found⟩ := mem_sortedShardRegistryLeaves.mp inside
    rw [(wf found).key]
    exact ⟨found, here⟩
  have own : ∀ leaf ∈ workchainLeaves (sortedShardRegistryLeaves leaves) w, LeafOf tlb w leaf :=
    fun leaf mem => ⟨(mine mem).2, wf (mine mem).1⟩
  have absent : ∀ leaf ∈ workchainLeaves (sortedShardRegistryLeaves leaves) w,
      before[shardTopKey leaf.block]? = none := fun leaf mem => fresh _ (mine mem).2
  obtain ⟨after, parsed, entered⟩ := parse_buildTree built own absent
  refine ⟨after, ?_, ?_⟩
  · obtain ⟨leaf, inside, here⟩ := some_
    obtain ⟨k, found⟩ := mem_sortedShardRegistryLeaves.mp inside
    have allowed := routable found
    rw [← (wf found).key] at allowed
    change leaf.block.workchain ≠ _ ∧ leaf.block.workchain ≠ _ at allowed
    rw [here] at allowed
    exact bind_eq_ok.mpr ⟨(), by simpa using allowed, parsed⟩
  · intro k
    split
    next here =>
      cases found : leaves[k]? with
      | some leaf =>
        have key := (wf found).key
        rw [← key]
        apply entered.present
        refine mem_workchainLeaves.mpr ⟨mem_sortedShardRegistryLeaves.mpr ⟨k, found⟩, ?_⟩
        rw [← here, ← key]
        rfl
      | none =>
        rw [entered.others, fresh k here]
        intro leaf mem same
        rw [← same, (mine mem).1] at found
        cases found
    next elsewhere =>
      apply entered.others
      intro leaf mem same
      apply elsewhere
      rw [← same]
      exact (mine mem).2

theorem parse_build (wf : WellFormed tlb leaves) (routable : Routable leaves)
    (h : buildShardHashesDictionary leaves = .ok shardHashes) :
    parseShardRegistryLeaves tlb shardHashes = .ok leaves := by
  have spec := buildShardHashesDictionary_spec h
  -- the entries still to read are distinct, and nothing of their workchains was read yet
  have loop : ∀ (items : List (BitVec 32 × Cell)) (before : LeafMap),
      (∀ item ∈ items, shardHashes[item.1]? = some item.2) → (items.map Prod.fst).Nodup →
      (∀ k : ShardRegistryKey, k.workchain ∈ items.map Prod.fst → before[k]? = none) →
      ∃ after, items.foldlM (parseWorkchain tlb) before = .ok after ∧
        ∀ k : ShardRegistryKey, after[k]? =
          if k.workchain ∈ items.map Prod.fst then leaves[k]? else before[k]? := by
    intro items
    induction items with
    | nil =>
      intro before _ _ _
      exact ⟨before, rfl, by simp⟩
    | cons item items ih =>
      intro before entries nodup fresh
      obtain ⟨w, value⟩ := item
      rw [map_cons, nodup_cons] at nodup
      have stored := entries (w, value) (by simp)
      have step : ∃ middle, parseWorkchain tlb before (w, value) = .ok middle ∧
          ∀ k : ShardRegistryKey, middle[k]? =
            if k.workchain = w then leaves[k]? else before[k]? := by
        rcases spec w with ⟨tree, built, here⟩ | ⟨-, absent⟩
        · rw [here] at stored
          cases stored
          apply parseWorkchain_spec wf routable _ built fun k hk => fresh k (by simp [hk])
          by_contra none_
          push Not at none_
          have empty : workchainLeaves (sortedShardRegistryLeaves leaves) w = [] := by
            apply eq_nil_iff_forall_not_mem.mpr
            intro leaf mem
            obtain ⟨inside, here⟩ := mem_workchainLeaves.mp mem
            exact none_ leaf inside here
          rw [empty] at built
          exact buildTree_nil built
        · rw [absent] at stored
          cases stored
      obtain ⟨middle, parsed, reads⟩ := step
      obtain ⟨after, rest, reads'⟩ := ih middle
        (fun item mem => entries item (by simp [mem])) nodup.2 (by
          intro k mem
          rw [reads, if_neg]
          · exact fresh k (by simp [mem])
          · rintro rfl
            exact nodup.1 mem)
      refine ⟨after, ?_, ?_⟩
      · exact bind_eq_ok.mpr ⟨middle, parsed, rest⟩
      · intro k
        rw [reads', reads, map_cons]
        by_cases here : k.workchain = w
        · simp [here]
        · simp only [here, if_false, mem_cons, false_or]
  have distinct := nodup_toList_fst shardHashes
  obtain ⟨after, parsed, reads⟩ := loop shardHashes.toList ∅
    (fun item mem => Std.ExtTreeMap.mem_toList_iff_getElem?_eq_some.mp mem) distinct (by simp)
  have same : after = leaves := by
    apply Std.ExtTreeMap.ext_getElem?
    intro k
    rw [reads]
    split
    · rfl
    next absent =>
      cases found : leaves[k]? with
      | none => rfl
      | some leaf =>
        exfalso
        apply absent
        rcases spec k.workchain with ⟨tree, -, here⟩ | ⟨apart, -⟩
        · exact mem_map.mpr ⟨_, Std.ExtTreeMap.mem_toList_iff_getElem?_eq_some.mpr here, rfl⟩
        · refine absurd ?_ (apart leaf (mem_sortedShardRegistryLeaves.mpr ⟨k, found⟩))
          rw [← (wf found).key]
          rfl
  rw [← same]
  exact parsed

end Dictionary

end Gton.Collator
