import Gton.Lib.BitTrie
import Gton.Lib.BitString
import Gton.MsgPool.Branch

/-!
# The destination router

Each workchain has a trie over shard prefixes: a destination sits at the node its prefix leads to,
under the index it has in the topology.
-/

namespace Gton.MsgPool

open Gton.Shard Gton.Lib Gton.Lib.Bits Gton.Lib.BitString
open List

/-- `routeNode`: the destinations of a node and its two children. -/
abbrev RouteNode := BitTrie Nat

/-- `destinationRouter`; a workchain without a node has the missing one. -/
structure DestinationRouter where
  workchains : BitVec 32 → RouteNode

namespace DestinationRouter

def empty : DestinationRouter := ⟨fun _ => .nil⟩

/-- `word >> (63 - depth) & 1`. -/
def bitAt (word : BitVec 64) (depth : Nat) : Bool := word >>> (63 - depth) &&& 1#64 == 1#64

/-- The loop of `insert`, with `left` bits to go. -/
def insertFrom (shard : BitVec 64) (index : Nat) : (left bitIndex : Nat) → RouteNode → RouteNode
  | 0, _, node => .node (node.values ++ [index]) (node.child false) (node.child true)
  | left + 1, bitIndex, node =>
    if bitAt shard bitIndex then
      .node node.values (node.child false)
        (insertFrom shard index left (bitIndex + 1) (node.child true))
    else
      .node node.values (insertFrom shard index left (bitIndex + 1) (node.child false))
        (node.child true)

/-- `insert`. The zero shard has no depth and stays at the root. -/
def insert (r : DestinationRouter) (destination : ShardIdent) (index : Nat) :
    DestinationRouter where
  workchains := Function.update r.workchains destination.workchain
    (insertFrom destination.shard index (63 - trailingZeros destination.shard) 0
      (r.workchains destination.workchain))

def routeSubtreeHolds (index : Nat) : RouteNode → Bool
  | .nil => false
  | .node destinations zero one =>
    destinations.contains index || (routeSubtreeHolds index zero || routeSubtreeHolds index one)

/-- The loop of `routesUnder`. -/
def routesUnderFrom (word : BitVec 64) (bits index : Nat) : RouteNode → (depth : Nat) → Bool
  | .nil, _ => routeSubtreeHolds index .nil
  | .node destinations zero one, depth =>
    if depth < bits then
      destinations.contains index ||
        (if bitAt word depth then routesUnderFrom word bits index one (depth + 1)
          else routesUnderFrom word bits index zero (depth + 1))
    else routeSubtreeHolds index (.node destinations zero one)

/-- `routesUnder`: could a key under the first `bits` bits of the prefix route there? -/
def routesUnder (r : DestinationRouter) (p : AccountPrefix) (bits index : Nat) : Bool :=
  routesUnderFrom p.prefix_ bits index (r.workchains p.workchain) 0

/-- The loop of `routes`. -/
def routesFrom (word : BitVec 64) (index : Nat) : RouteNode → (depth : Nat) → Bool
  | .nil, _ => false
  | .node destinations zero one, depth =>
    destinations.contains index ||
      (if depth = 64 then false
        else if bitAt word depth then routesFrom word index one (depth + 1)
        else routesFrom word index zero (depth + 1))

def routes (r : DestinationRouter) (p : AccountPrefix) (index : Nat) : Bool :=
  routesFrom p.prefix_ index (r.workchains p.workchain) 0

/-- The loop of `walk`. -/
def walkFrom (word : BitVec 64) : RouteNode → (depth : Nat) → List Nat
  | .nil, _ => []
  | .node destinations zero one, depth =>
    destinations ++
      (if depth = 64 then []
        else if bitAt word depth then walkFrom word one (depth + 1)
        else walkFrom word zero (depth + 1))

/-- `walk`: the destinations it visits, in order. -/
def walk (r : DestinationRouter) (p : AccountPrefix) : List Nat :=
  walkFrom p.prefix_ (r.workchains p.workchain) 0

/-- The router of a topology, filled destination by destination. -/
def ofDestinations (destinations : List ShardIdent) : DestinationRouter :=
  destinations.zipIdx.foldl (fun r d => r.insert d.1 d.2) empty

end DestinationRouter

/-! ## Topologies -/

/-- `internalsSnapshot` without the states of the destinations: the router is the one its
destinations fill. -/
structure Topology where
  destinations : List ShardIdent
  router : DestinationRouter
  filled : router = .ofDestinations destinations

/-- The topology of a list of destinations. -/
def Topology.of (destinations : List ShardIdent) : Topology where
  destinations := destinations
  router := .ofDestinations destinations
  filled := rfl

/-! ## What the router answers -/

namespace DestinationRouter

variable {word : BitVec 64} {node : RouteNode} {index depth known : Nat} {p : AccountPrefix}
  {destinations : List ShardIdent}

/-- The bits of a shard's prefix, those above its mark. -/
def pathOf (shard : BitVec 64) : List Bool := (bits shard).take (63 - trailingZeros shard)

theorem length_pathOf (shard : BitVec 64) : (pathOf shard).length ≤ 63 := by
  rw [pathOf, length_take]
  omega

theorem getElem?_pathOf (shard : BitVec 64) (i : Nat) : (pathOf shard)[i]? =
    if i < 63 - trailingZeros shard then some (shard.getMsbD i) else none := by
  rw [pathOf, List.getElem?_take, getElem?_bits]
  by_cases inside : i < 63 - trailingZeros shard
  · rw [if_pos inside, if_pos inside, if_pos (by omega)]
  · rw [if_neg inside, if_neg inside]

theorem bitAt_eq (lt : depth < 64) : bitAt word depth = word.getMsbD depth := by
  rw [BitVec.getMsbD_eq_getLsbD, bitAt]
  have one : (1#64) = BitVec.twoPow 64 0 := rfl
  rw [one, BitVec.and_twoPow, BitVec.getLsbD_ushiftRight, Nat.add_zero]
  have position : 64 - 1 - depth = 63 - depth := by omega
  simp only [lt, decide_true, Bool.true_and, position]
  cases word.getLsbD (63 - depth) <;> rfl

theorem drop_bits (lt : depth < 64) :
    (bits word).drop depth = bitAt word depth :: (bits word).drop (depth + 1) := by
  have inside : depth < (bits word).length := by rwa [length_bits]
  have bit : (bits word)[depth]? = some (bitAt word depth) := by
    rw [getElem?_bits, if_pos lt, bitAt_eq lt]
  rw [drop_eq_getElem_cons inside]
  rw [getElem?_eq_getElem inside, Option.some.injEq] at bit
  rw [bit]

theorem insertFrom_eq : ∀ {left bitIndex : Nat} {node : RouteNode}, bitIndex + left ≤ 64 →
    insertFrom word index left bitIndex node =
      BitTrie.insert index (((bits word).drop bitIndex).take left) node := by
  intro left
  induction left with
  | zero =>
    intro bitIndex node _
    rfl
  | succ left ih =>
    intro bitIndex node le
    rw [drop_bits (by omega), take_succ_cons, insertFrom, ih (by omega), ih (by omega)]
    cases bitAt word bitIndex <;> rfl

theorem workchains_insert (r : DestinationRouter) (d : ShardIdent) (wc : BitVec 32) :
    (r.insert d index).workchains wc =
      if d.workchain = wc then BitTrie.insert index (pathOf d.shard) (r.workchains wc)
      else r.workchains wc := by
  change Function.update r.workchains d.workchain _ wc = _
  by_cases same : d.workchain = wc
  · subst same
    rw [if_pos rfl, Function.update_self, insertFrom_eq (by omega), drop_zero]
    rfl
  · rw [if_neg same, Function.update_of_ne (Ne.symm same)]

theorem walkFrom_eq (le : depth ≤ 64) :
    walkFrom word node depth = node.along ((bits word).drop depth) := by
  induction node generalizing depth with
  | nil => rw [BitTrie.along_nil, walkFrom]
  | node destinations zero one zero_ih one_ih =>
    rw [walkFrom]
    by_cases last : depth = 64
    · subst last
      rw [if_pos rfl, drop_of_length_le (by rw [length_bits])]
      exact append_nil _
    · rw [if_neg last, drop_bits (by omega), zero_ih (by omega), one_ih (by omega)]
      cases bitAt word depth <;> rfl

theorem routesFrom_eq : routesFrom word index node depth =
    (walkFrom word node depth).contains index := by
  induction node generalizing depth with
  | nil => rfl
  | node destinations zero one zero_ih one_ih =>
    rw [routesFrom, walkFrom, zero_ih, one_ih]
    split
    · simp
    · split <;> simp

theorem routes_eq (r : DestinationRouter) (p : AccountPrefix) :
    r.routes p index = true ↔ index ∈ r.walk p := by
  rw [routes, routesFrom_eq, contains_iff_mem, walk]

theorem routeSubtreeHolds_iff : routeSubtreeHolds index node = true ↔ index ∈ node.all := by
  induction node with
  | nil => simp [routeSubtreeHolds, BitTrie.all]
  | node destinations zero one zero_ih one_ih =>
    simp only [routeSubtreeHolds, BitTrie.all, Bool.or_eq_true, contains_iff_mem,
      zero_ih, one_ih, mem_append, or_assoc]

theorem routesUnderFrom_iff (le : known ≤ 64) :
    routesUnderFrom word known index node depth = true ↔
      index ∈ node.under (((bits word).take known).drop depth) := by
  induction node generalizing depth with
  | nil => simp [routesUnderFrom, routeSubtreeHolds]
  | node destinations zero one zero_ih one_ih =>
    rw [routesUnderFrom]
    by_cases more : depth < known
    · have next : ((bits word).take known).drop depth =
          bitAt word depth :: ((bits word).take known).drop (depth + 1) := by
        have longer : known - depth = (known - (depth + 1)) + 1 := by omega
        rw [drop_take, drop_take, drop_bits (by omega), longer, take_succ_cons]
      rw [if_pos more, next, BitTrie.under, mem_append, Bool.or_eq_true,
        contains_iff_mem]
      apply or_congr Iff.rfl
      cases bitAt word depth
      · exact zero_ih
      · exact one_ih
    · have past : ((bits word).take known).drop depth = [] := by
        apply drop_of_length_le
        rw [length_take]
        omega
      rw [if_neg more, past, routeSubtreeHolds_iff, BitTrie.under]

/-- A shard contains the prefixes its own path leads to; the zero shard contains its workchain. -/
theorem containsPrefix_iff {d : ShardIdent} : d.containsPrefix p = true ↔
    d.workchain = p.workchain ∧ pathOf d.shard <+: bits p.prefix_ := by
  by_cases zero : d.shard = 0#64
  · have path : pathOf d.shard = [] := by
      rw [zero]
      decide +kernel
    rw [path]
    unfold ShardIdent.containsPrefix ShardIdent.contains
    by_cases same : d.workchain = p.workchain
    · simp [same, zero]
    · simp [same]
  · rw [ShardIdent.contains_iff zero]
    apply and_congr Iff.rfl
    constructor
    · intro agree
      rw [prefix_iff_getElem?]
      intro i inside
      have found := getElem?_eq_getElem inside
      rw [getElem?_pathOf] at found
      split at found
      next short =>
        change i < 63 - d.tag at short
        rw [← found, getElem?_bits, if_pos (by omega), BitVec.getMsbD_eq_getLsbD,
          BitVec.getMsbD_eq_getLsbD, agree _ (by omega)]
      · cases found
    · intro leads i above
      by_cases inside : i < 64
      · have own : (pathOf d.shard)[63 - i]? = some (d.shard.getMsbD (63 - i)) := by
          rw [getElem?_pathOf, if_pos]
          change 63 - i < 63 - d.tag
          omega
        obtain ⟨rest, whole⟩ := leads
        have same : (bits p.prefix_)[63 - i]? = some (d.shard.getMsbD (63 - i)) := by
          rw [← whole, getElem?_append_left (List.getElem?_eq_some_iff.mp own).1, own]
        rw [getElem?_bits, if_pos (by omega), Option.some.injEq, BitVec.getMsbD_eq_getLsbD,
          BitVec.getMsbD_eq_getLsbD] at same
        have position : 64 - 1 - (63 - i) = i := by omega
        have high : 63 - i < 64 := by omega
        simpa only [high, decide_true, Bool.true_and, position] using same
      · rw [BitVec.getLsbD_of_ge _ _ (by omega), BitVec.getLsbD_of_ge _ _ (by omega)]

theorem walk_insert (r : DestinationRouter) (d : ShardIdent) (p : AccountPrefix) :
    ((r.insert d index).walk p).Perm
      (r.walk p ++ if d.containsPrefix p then [index] else []) := by
  unfold walk
  rw [walkFrom_eq (by omega), walkFrom_eq (by omega), drop_zero, workchains_insert]
  simp only [containsPrefix_iff]
  by_cases same : d.workchain = p.workchain
  · simpa only [same, if_true, true_and] using BitTrie.along_insert
  · simp [same]

theorem ofDestinations_concat (destinations : List ShardIdent) (d : ShardIdent) :
    ofDestinations (destinations ++ [d]) =
      (ofDestinations destinations).insert d destinations.length := by
  simp [ofDestinations, zipIdx_append]

/-- The indices of the destinations that contain a prefix. -/
def covering (destinations : List ShardIdent) (p : AccountPrefix) : List Nat :=
  (destinations.zipIdx.filter (·.1.containsPrefix p)).map (·.2)

theorem walk_perm (destinations : List ShardIdent) (p : AccountPrefix) :
    ((ofDestinations destinations).walk p).Perm (covering destinations p) := by
  induction destinations using List.reverseRecOn with
  | nil => exact List.Perm.refl _
  | append_singleton ds d ih =>
    rw [ofDestinations_concat]
    have last : covering (ds ++ [d]) p =
        covering ds p ++ if d.containsPrefix p then [ds.length] else [] := by
      unfold covering
      rw [zipIdx_append, filter_append, map_append]
      cases inside : d.containsPrefix p <;> simp [inside]
    rw [last]
    exact (walk_insert _ d p).trans (ih.append_right _)

theorem mem_covering :
    index ∈ covering destinations p ↔
      ∃ d, destinations[index]? = some d ∧ d.containsPrefix p = true := by
  simp only [covering, mem_map, mem_filter, Prod.exists, exists_eq_right,
    mem_zipIdx_iff_getElem?]

theorem nodup_covering (destinations : List ShardIdent) (p : AccountPrefix) :
    (covering destinations p).Nodup := by
  apply List.Nodup.sublist (filter_sublist.map _)
  rw [zipIdx_map_snd]
  exact nodup_range'

theorem mem_walk :
    index ∈ (ofDestinations destinations).walk p ↔
      ∃ d, destinations[index]? = some d ∧ d.containsPrefix p = true := by
  rw [(walk_perm destinations p).mem_iff, mem_covering]

theorem nodup_walk (destinations : List ShardIdent) (p : AccountPrefix) :
    ((ofDestinations destinations).walk p).Nodup :=
  (walk_perm destinations p).nodup_iff.mpr (nodup_covering destinations p)

/-- One destination more makes a subtree reachable exactly if its path and the known bits do not
part. -/
theorem routesUnder_insert (r : DestinationRouter) (d : ShardIdent) (p : AccountPrefix)
    {i : Nat} (le : known ≤ 64) : (r.insert d index).routesUnder p known i = true ↔
      r.routesUnder p known i = true ∨ i = index ∧ d.workchain = p.workchain ∧
        (pathOf d.shard <+: (bits p.prefix_).take known ∨
          (bits p.prefix_).take known <+: pathOf d.shard) := by
  unfold routesUnder
  rw [routesUnderFrom_iff le, routesUnderFrom_iff le, drop_zero, workchains_insert]
  by_cases same : d.workchain = p.workchain
  · rw [if_pos same, BitTrie.under_insert.mem_iff, mem_append]
    apply or_congr Iff.rfl
    split <;> simp_all
  · simp [same]

theorem routesUnder_iff_paths
    (le : known ≤ 64) : (ofDestinations destinations).routesUnder p known index = true ↔
      ∃ d, destinations[index]? = some d ∧ d.workchain = p.workchain ∧
        (pathOf d.shard <+: (bits p.prefix_).take known ∨
          (bits p.prefix_).take known <+: pathOf d.shard) := by
  induction destinations using List.reverseRecOn with
  | nil =>
    unfold routesUnder
    rw [routesUnderFrom_iff le]
    simp [ofDestinations, empty]
  | append_singleton ds d ih =>
    rw [ofDestinations_concat, routesUnder_insert _ _ _ le, ih]
    constructor
    · rintro (⟨d', found, comparable⟩ | ⟨rfl, comparable⟩)
      · have inside := (List.getElem?_eq_some_iff.mp found).1
        exact ⟨d', by rw [getElem?_append_left inside, found], comparable⟩
      · exact ⟨d, by simp, comparable⟩
    · rintro ⟨d', found, comparable⟩
      rcases Nat.lt_trichotomy index ds.length with lt | rfl | gt
      · rw [getElem?_append_left lt] at found
        exact .inl ⟨d', found, comparable⟩
      · rw [getElem?_concat_length, Option.some.injEq] at found
        exact .inr ⟨rfl, found ▸ comparable⟩
      · rw [getElem?_eq_none (by rw [length_append]; exact gt)] at found
        cases found

/-- A prefix that continues the first bits of another one. -/
def Extends (known : Nat) (p q : AccountPrefix) : Prop :=
  q.workchain = p.workchain ∧ ∀ k < known, q.prefix_.getMsbD k = p.prefix_.getMsbD k

theorem extends_iff {q : AccountPrefix} : Extends known p q ↔
    q.workchain = p.workchain ∧ (bits q.prefix_).take known = (bits p.prefix_).take known := by
  apply and_congr Iff.rfl
  constructor
  · intro agree
    apply ext_getElem?
    intro k
    rw [List.getElem?_take, List.getElem?_take]
    split
    next short =>
      rw [getElem?_bits, getElem?_bits, agree k short]
    · rfl
  · intro same k short
    by_cases inside : k < 64
    · have bit := congrArg (fun l : List Bool => l[k]?) same
      simpa only [List.getElem?_take, short, if_true, getElem?_bits, inside, Option.some.injEq]
        using bit
    · rw [BitVec.getMsbD_of_ge _ _ (Nat.not_lt.mp inside),
        BitVec.getMsbD_of_ge _ _ (Nat.not_lt.mp inside)]

/-- The pruning question is the existence of a prefix that routes to the destination. -/
theorem routesUnder_iff
    (le : known ≤ 64) : (ofDestinations destinations).routesUnder p known index = true ↔
      ∃ q, Extends known p q ∧ index ∈ (ofDestinations destinations).walk q := by
  rw [routesUnder_iff_paths le]
  constructor
  · rintro ⟨d, found, same, comparable⟩
    have short : (pathOf d.shard).length ≤ 64 := Nat.le_succ_of_le (length_pathOf d.shard)
    obtain ⟨y, agree, leads⟩ := (exists_extension p.prefix_ short).mpr comparable
    refine ⟨⟨p.workchain, y⟩, extends_iff.mpr ⟨rfl, agree⟩, mem_walk.mpr ⟨d, found, ?_⟩⟩
    exact containsPrefix_iff.mpr ⟨same, leads⟩
  · rintro ⟨q, continues, visited⟩
    obtain ⟨workchain, agree⟩ := extends_iff.mp continues
    obtain ⟨d, found, inside⟩ := mem_walk.mp visited
    obtain ⟨same, leads⟩ := containsPrefix_iff.mp inside
    have short : (pathOf d.shard).length ≤ 64 := Nat.le_succ_of_le (length_pathOf d.shard)
    exact ⟨d, found, same.trans workchain,
      (exists_extension p.prefix_ short).mp ⟨q.prefix_, agree, leads⟩⟩

end DestinationRouter

end Gton.MsgPool
