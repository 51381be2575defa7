import Gton.Collator.ShardBatches
import Mathlib.Data.List.Permutation

/-!
# Selecting shard tips

The masterchain collator groups the tips it knows by the transition they would make, takes from
each group the first tips that pass on their own, and applies them together.
-/

namespace Gton.Collator

open Gton.Shard
open Gton.Lib.Bits
open Gton.Lib.Tiling
open Gton.Lib.Fallible
open Gton.Lib.Sorted
open List

/-! ## The selection -/

/-- `projectedShardTop`: a tip and the hash of the description it was read from. -/
structure ProjectedShardTop where
  key : List UInt8
  top : ShardTop
  deriving Inhabited

abbrev CandidateOrder := ShardRegistryKey × UInt32 × List UInt8 × List UInt8

/-- `shardTopCandidateLess`, as an order: by shard, the higher seqno first, then by root hash and
by description. -/
def candidateCmp : CandidateOrder → CandidateOrder → Ordering :=
  compareLex (fun a b => ShardRegistryKey.cmp a.1 b.1)
    (compareLex (compareOn fun a => -(a.2.1.toNat : Int))
      (compareLex (compareOn (·.2.2.1)) (compareOn (·.2.2.2))))

def ProjectedShardTop.order (c : ProjectedShardTop) : CandidateOrder :=
  (shardTopKey c.top.block, c.top.block.seqno, c.top.block.rootHash, c.key)

/-- `shardTopTransitionGroupKey`. -/
structure GroupKey where
  kind : ShardTransitionKind
  workchain : BitVec 32
  first : BitVec 64
  second : BitVec 64
  deriving DecidableEq

def shardTopGroupKey (item : DecodedShardTop) : GroupKey where
  kind := item.kind
  workchain := item.leaf.block.workchain
  first := (item.predecessor.head?.map (·.shard)).getD 0
  second := if item.predecessor.length = 2 then (item.predecessor.getLast?.map (·.shard)).getD 0
    else 0

def shardTopGroupClaims (key : GroupKey) : List ShardRegistryKey :=
  ⟨key.workchain, key.first⟩ ::
    if key.kind = .merge then [⟨key.workchain, key.second⟩] else []

/-- `shardTopTransitionGroup`. -/
structure TransitionGroup where
  key : GroupKey
  output : ShardRegistryKey
  candidates : List ProjectedShardTop
  left : List ProjectedShardTop
  right : List ProjectedShardTop

/-- A candidate joins the group of its transition, on its side if it splits. -/
def TransitionGroup.add (g : TransitionGroup) (item : DecodedShardTop) (c : ProjectedShardTop) :
    TransitionGroup :=
  if item.kind = .split then
    match child g.key.first true with
    | none => g
    | some left =>
      if item.leaf.block.shard = left then { g with left := g.left ++ [c] }
      else { g with right := g.right ++ [c] }
  else { g with candidates := g.candidates ++ [c] }

section Selection

variable (tlb : Codec)

/-- One candidate of `selectShardTopTransitions`: it is skipped if it cannot be decoded. -/
def addCandidate (groups : List TransitionGroup) (c : ProjectedShardTop) : List TransitionGroup :=
  match decodeShardTop tlb c.top with
  | .error _ => groups
  | .ok item =>
    let key := shardTopGroupKey item
    if groups.any (·.key = key) then
      groups.map fun g => if g.key = key then g.add item c else g
    else groups ++ [(⟨key, item.target, [], [], []⟩ : TransitionGroup).add item c]

def groupCandidates (sorted : List ProjectedShardTop) : List TransitionGroup :=
  sorted.foldl (addCandidate tlb) []

variable (leaves : LeafMap) (ltLimit : UInt64)

def shardTopBatchValid (batch : List ShardTop) : Bool :=
  match batch.mapM (decodeShardTop tlb) with
  | .error _ => false
  | .ok items =>
    match planShardRegistryTransitions items with
    | .ok [t] => (verifyShardRegistryTransition tlb leaves ltLimit t).isOk
    | _ => false

def selectShardTopGroup (g : TransitionGroup) : List ShardTop :=
  if g.key.kind = .split then
    (g.left.findSome? fun l =>
      (g.right.find? fun r => shardTopBatchValid tlb leaves ltLimit [l.top, r.top]).map fun r =>
        [l.top, r.top]).getD []
  else
    ((g.candidates.find? fun c => shardTopBatchValid tlb leaves ltLimit [c.top]).map fun c =>
      [c.top]).getD []

/-- The tips selected so far and the shards they replace. -/
structure Selection where
  selected : List ShardTop
  consumed : List ShardRegistryKey

/-- One group of the loop over the groups. -/
def Selection.visit (s : Selection) (g : TransitionGroup) : Selection :=
  let claims := shardTopGroupClaims g.key
  if claims.any (s.consumed.contains ·) then s
  else
    match selectShardTopGroup tlb leaves ltLimit g with
    | [] => s
    | batch => ⟨s.selected ++ batch, s.consumed ++ claims⟩

/-- `selectShardTopTransitions`. Groups are kept in a map whose iteration order is any: `iterate`
says which, and with it how groups with the same output are ordered. -/
def selectShardTopTransitions (iterate : List TransitionGroup → List TransitionGroup)
    (candidates : List ProjectedShardTop) : Except Fault (List ShardTop) :=
  let sorted := candidates.insertionSort fun x y => (candidateCmp x.order y.order).isLE
  let ordered := sortByKey (·.output) (iterate (groupCandidates tlb sorted))
  let selected := (ordered.foldl (Selection.visit tlb leaves ltLimit) ⟨[], []⟩).selected
  if selected.isEmpty then .ok []
  else do
    let _ ← ShardRegistry.apply tlb ⟨leaves, ∅⟩ selected ltLimit
    return sortByKey (fun top => shardTopKey top.block) selected

end Selection

instance : Std.TransCmp candidateCmp := by
  unfold candidateCmp
  have first : Std.TransCmp fun a b : CandidateOrder => ShardRegistryKey.cmp a.1 b.1 :=
    { eq_swap := Std.OrientedCmp.eq_swap
      isLE_trans := Std.TransCmp.isLE_trans }
  infer_instance

instance : Std.LawfulEqCmp candidateCmp where
  eq_of_compare {a b} eq := by
    simp only [candidateCmp, compareLex, compareOn, Ordering.then_eq_eq,
      Std.LawfulEqCmp.compare_eq_iff_eq] at eq
    obtain ⟨key, seqno, root, hash⟩ := eq
    have same : a.2.1 = b.2.1 := UInt32.toNat_inj.mp (by omega)
    exact Prod.ext key (Prod.ext same (Prod.ext root hash))

/-! ## The groups -/

variable {key : GroupKey} {β α : Type}

section Groups

variable {tlb : Codec} {seen : List ProjectedShardTop} {groups : List TransitionGroup}
  {c : ProjectedShardTop} {item : DecodedShardTop} {left : Bool}

/-- A candidate that belongs to a group. -/
def InGroup (tlb : Codec) (key : GroupKey) (c : ProjectedShardTop) : Prop :=
  ∃ item, decodeShardTop tlb c.top = .ok item ∧ shardTopGroupKey item = key

/-- A candidate on one side of a split. -/
def OnSide (tlb : Codec) (key : GroupKey) (left : Bool) (c : ProjectedShardTop) : Prop :=
  ∃ item l, decodeShardTop tlb c.top = .ok item ∧ shardTopGroupKey item = key ∧
    key.kind = .split ∧ child key.first true = some l ∧ (item.leaf.block.shard = l ↔ left = true)

/-- What the groups hold once some candidates were added. -/
structure Groups (tlb : Codec) (seen : List ProjectedShardTop) (groups : List TransitionGroup) :
    Prop where
  keys : (groups.map (·.key)).Nodup
  candidates : ∀ g ∈ groups, g.key.kind ≠ .split → ∀ c,
    c ∈ g.candidates ↔ c ∈ seen ∧ InGroup tlb g.key c
  sides : ∀ g ∈ groups, g.key.kind = .split → ∀ c,
    (c ∈ g.left ↔ c ∈ seen ∧ OnSide tlb g.key true c) ∧
    (c ∈ g.right ↔ c ∈ seen ∧ OnSide tlb g.key false c)
  complete : ∀ c ∈ seen, ∀ item, decodeShardTop tlb c.top = .ok item →
    ∃ g ∈ groups, g.key = shardTopGroupKey item

@[simp] theorem TransitionGroup.add_key (g : TransitionGroup) (item : DecodedShardTop)
    (c : ProjectedShardTop) : (g.add item c).key = g.key := by
  unfold TransitionGroup.add
  split
  · split
    · rfl
    · split <;> rfl
  · rfl

theorem inGroup_iff (decoded : decodeShardTop tlb c.top = .ok item) :
    InGroup tlb key c ↔ shardTopGroupKey item = key := by
  constructor
  · rintro ⟨item', decoded', here⟩
    rw [decoded] at decoded'
    cases decoded'
    exact here
  · intro here
    exact ⟨item, decoded, here⟩

theorem onSide_iff (decoded : decodeShardTop tlb c.top = .ok item) :
    OnSide tlb key left c ↔ shardTopGroupKey item = key ∧ key.kind = .split ∧
      ∃ l, child key.first true = some l ∧ (item.leaf.block.shard = l ↔ left = true) := by
  constructor
  · rintro ⟨item', l, decoded', here, kind, hl, side⟩
    rw [decoded] at decoded'
    cases decoded'
    exact ⟨here, kind, l, hl, side⟩
  · rintro ⟨here, kind, l, hl, side⟩
    exact ⟨item, l, decoded, here, kind, hl, side⟩

/-- What adding a candidate to its own group does to the lists of the group. -/
theorem TransitionGroup.mem_add (g : TransitionGroup)
    (decoded : decodeShardTop tlb c.top = .ok item) (own : g.key = shardTopGroupKey item)
    (x : ProjectedShardTop) :
    (g.key.kind ≠ .split → (x ∈ (g.add item c).candidates ↔ x ∈ g.candidates ∨ x = c)) ∧
    (g.key.kind = .split →
      (x ∈ (g.add item c).left ↔ x ∈ g.left ∨ (x = c ∧ OnSide tlb g.key true c)) ∧
      (x ∈ (g.add item c).right ↔ x ∈ g.right ∨ (x = c ∧ OnSide tlb g.key false c))) := by
  have kind : item.kind = g.key.kind := by
    rw [own]
    rfl
  constructor
  · intro single
    unfold TransitionGroup.add
    rw [if_neg (by rw [kind]; exact single)]
    simp
  · intro split
    rw [onSide_iff decoded, onSide_iff decoded]
    unfold TransitionGroup.add
    rw [if_pos (by rw [kind]; exact split)]
    cases left : child g.key.first true with
    | none => simp
    | some l =>
      by_cases here : item.leaf.block.shard = l
      · simp [here, split, ← own]
      · simp [here, split, ← own]

theorem mem_snoc {P : ProjectedShardTop → Prop} {x : ProjectedShardTop} :
    (x ∈ seen ++ [c] ∧ P x) ↔ (x ∈ seen ∧ P x) ∨ (x = c ∧ P c) := by
  rw [mem_append, mem_singleton, or_and_right]
  apply or_congr_right
  apply and_congr_right
  rintro rfl
  rfl

theorem OnSide.inGroup (h : OnSide tlb key left c) : InGroup tlb key c := by
  obtain ⟨item, -, decoded, here, -⟩ := h
  exact ⟨item, decoded, here⟩

/-- The lists of a group are the candidates seen that belong to it. -/
def TransitionGroup.Holds (tlb : Codec) (seen : List ProjectedShardTop) (g : TransitionGroup) :
    Prop :=
  ∀ c, (g.key.kind ≠ .split → (c ∈ g.candidates ↔ c ∈ seen ∧ InGroup tlb g.key c)) ∧
    (g.key.kind = .split →
      (c ∈ g.left ↔ c ∈ seen ∧ OnSide tlb g.key true c) ∧
      (c ∈ g.right ↔ c ∈ seen ∧ OnSide tlb g.key false c))

namespace TransitionGroup.Holds

variable {g : TransitionGroup}

theorem other (h : g.Holds tlb seen) (outside : ¬ InGroup tlb g.key c) :
    g.Holds tlb (seen ++ [c]) := by
  have noSide (left : Bool) : ¬ OnSide tlb g.key left c := fun side => outside side.inGroup
  intro x
  obtain ⟨ofSingle, ofSplit⟩ := h x
  constructor
  · intro single
    rw [mem_snoc, ofSingle single]
    simp [outside]
  · intro split
    rw [mem_snoc, mem_snoc, (ofSplit split).1, (ofSplit split).2]
    simp [noSide]

theorem add (h : g.Holds tlb seen) (decoded : decodeShardTop tlb c.top = .ok item)
    (own : g.key = shardTopGroupKey item) : (g.add item c).Holds tlb (seen ++ [c]) := by
  intro x
  obtain ⟨ofSingle, ofSplit⟩ := g.mem_add decoded own x
  rw [add_key]
  constructor
  · intro single
    rw [ofSingle single, mem_snoc, (h x).1 single]
    simp [inGroup_iff decoded, own]
  · intro split
    rw [(ofSplit split).1, (ofSplit split).2, mem_snoc, mem_snoc, ((h x).2 split).1,
      ((h x).2 split).2]
    exact ⟨Iff.rfl, Iff.rfl⟩

theorem new {output : ShardRegistryKey}
    (absent : ∀ x ∈ seen, ¬ InGroup tlb key x) : Holds tlb seen ⟨key, output, [], [], []⟩ := by
  intro x
  have noSide (left : Bool) (mem : x ∈ seen) : ¬ OnSide tlb key left x :=
    fun side => absent x mem side.inGroup
  simp only [not_mem_nil, false_iff, not_and]
  exact ⟨fun _ => absent x, fun _ => ⟨noSide true, noSide false⟩⟩

end TransitionGroup.Holds

namespace Groups

theorem nil : Groups tlb [] [] := ⟨by simp, by simp, by simp, by simp⟩

theorem holds (h : Groups tlb seen groups) {g : TransitionGroup} (mem : g ∈ groups) :
    g.Holds tlb seen :=
  fun c => ⟨fun single => h.candidates g mem single c, fun split => h.sides g mem split c⟩

theorem of_holds (keys : (groups.map (·.key)).Nodup) (holds : ∀ g ∈ groups, g.Holds tlb seen)
    (complete : ∀ c ∈ seen, ∀ item, decodeShardTop tlb c.top = .ok item →
      ∃ g ∈ groups, g.key = shardTopGroupKey item) : Groups tlb seen groups :=
  ⟨keys, fun g mem single c => (holds g mem c).1 single,
    fun g mem split c => (holds g mem c).2 split, complete⟩

theorem exists_group (h : Groups tlb seen groups) (mem : c ∈ seen) (inGroup : InGroup tlb key c) :
    ∃ g ∈ groups, g.key = key := by
  obtain ⟨item, decoded, rfl⟩ := inGroup
  exact h.complete c mem item decoded

theorem add (h : Groups tlb seen groups) :
    Groups tlb (seen ++ [c]) (addCandidate tlb groups c) := by
  unfold addCandidate
  split
  next e failed =>
    refine of_holds h.keys ?_ ?_
    · intro g mem
      apply (h.holds mem).other
      rintro ⟨item, decoded, -⟩
      rw [failed] at decoded
      cases decoded
    · intro x mem item decoded
      rcases mem_append.mp mem with old | new
      · exact h.complete x old item decoded
      · rw [mem_singleton.mp new, failed] at decoded
        cases decoded
  next item decoded =>
    dsimp only
    split
    next some_ =>
      have keep (g : TransitionGroup) :
          (if g.key = shardTopGroupKey item then g.add item c else g).key = g.key := by
        split
        · exact g.add_key item c
        · rfl
      refine of_holds ?_ ?_ ?_
      · rw [map_map]
        have same : groups.map ((·.key) ∘ fun g =>
            if g.key = shardTopGroupKey item then g.add item c else g) = groups.map (·.key) :=
          map_congr_left fun g _ => keep g
        rw [same]
        exact h.keys
      · intro g' mem
        obtain ⟨g, inside, rfl⟩ := mem_map.mp mem
        split
        next here =>
          exact (h.holds inside).add decoded here
        next differ =>
          apply (h.holds inside).other
          rw [inGroup_iff decoded]
          exact fun same => differ same.symm
      · intro x mem item' decoded'
        have found : ∃ g ∈ groups, g.key = shardTopGroupKey item' := by
          rcases mem_append.mp mem with old | new
          · exact h.complete x old item' decoded'
          · rw [mem_singleton.mp new, decoded] at decoded'
            cases decoded'
            simpa using some_
        obtain ⟨g, inside, here⟩ := found
        exact ⟨_, mem_map_of_mem inside, (keep g).trans here⟩
    next none_ =>
      simp only [any_eq_true, decide_eq_true_eq, not_exists, not_and] at none_
      refine of_holds ?_ ?_ ?_
      · rw [map_append, nodup_append]
        refine ⟨h.keys, nodup_singleton _, ?_⟩
        intro k mem k' new same
        obtain ⟨g, inside, rfl⟩ := mem_map.mp mem
        rw [map_singleton, mem_singleton, TransitionGroup.add_key] at new
        exact none_ g inside (same.trans new)
      · intro g mem
        rcases mem_append.mp mem with old | new
        · apply (h.holds old).other
          rw [inGroup_iff decoded]
          exact fun same => none_ g old same.symm
        · rw [mem_singleton.mp new]
          refine TransitionGroup.Holds.add (.new ?_) decoded rfl
          intro x mem inGroup
          obtain ⟨g, inside, same⟩ := h.exists_group mem inGroup
          exact none_ g inside same
      · intro x mem item' decoded'
        rcases mem_append.mp mem with old | new
        · obtain ⟨g, inside, here⟩ := h.complete x old item' decoded'
          exact ⟨g, mem_append_left _ inside, here⟩
        · rw [mem_singleton.mp new, decoded] at decoded'
          cases decoded'
          exact ⟨_, mem_append_right _ (mem_singleton_self _),
            TransitionGroup.add_key _ _ _⟩

theorem addAll {rest : List ProjectedShardTop} (h : Groups tlb seen groups) :
    Groups tlb (seen ++ rest) (rest.foldl (addCandidate tlb) groups) := by
  induction rest generalizing seen groups with
  | nil => simpa using h
  | cons c rest ih =>
    rw [foldl_cons, ← singleton_append, ← append_assoc]
    exact ih h.add

end Groups

theorem groups_groupCandidates (sorted : List ProjectedShardTop) :
    Groups tlb sorted (groupCandidates tlb sorted) := Groups.nil.addAll

end Groups

/-! ## Groups that pass -/

section Passing

variable {tlb : Codec} {leaves : LeafMap} {ltLimit : UInt64} {batch batch' : List ShardTop}
  {items items' : List DecodedShardTop} {t₀ t t₀' t' : ShardRegistryTransition}
  {item item' : DecodedShardTop} {top top' : ShardTop}

theorem shardTopBatchValid_iff : shardTopBatchValid tlb leaves ltLimit batch = true ↔
    ∃ items t₀ t, Checked tlb leaves ltLimit batch items [t₀] [t] := by
  unfold shardTopBatchValid
  constructor
  · intro h
    split at h
    · cases h
    next items decoding =>
      split at h
      next t₀ planning =>
        refine ⟨items, t₀, resultD (verifyShardRegistryTransition tlb leaves ltLimit t₀) t₀,
          decoding, planning, mapM_eq_ok.mpr (.cons (eq_ok_resultD h) .nil)⟩
      · cases h
  · rintro ⟨items, t₀, t, checked⟩
    simp only [checked.decoding, checked.planning]
    cases mapM_eq_ok.mp checked.verifying with
    | cons head _ =>
      rw [head]
      rfl

theorem map_eq_pair {f : α → β} {l : List α} {b c : β} (h : l.map f = [b, c]) :
    ∃ x y, l = [x, y] ∧ f x = b ∧ f y = c := by
  obtain ⟨x, rest, rfl, first, later⟩ := map_eq_cons_iff.mp h
  obtain ⟨y, rfl, second⟩ := map_eq_singleton_iff.mp later
  exact ⟨x, y, rfl, first, second⟩

theorem transitionKind_ordered {block : BlockID} {predecessors predecessor : List BlockID}
    (h : transitionKind block predecessors = .ok (.merge, predecessor)) :
    ∃ p q, predecessor = [p, q] ∧ p.shard ≤ q.shard := by
  match predecessors, h with
  | [], h => cases h
  | [single], h =>
    simp only [transitionKind] at h
    split at h
    · cases h
    · split at h <;> cases h
  | [first, second], h =>
    simp only [transitionKind, bind_eq_ok] at h
    obtain ⟨left, -, right, -, _, -, result⟩ := h
    cases result
    split
    next swapped =>
      exact ⟨second, first, rfl, BitVec.le_of_lt swapped⟩
    next ordered =>
      exact ⟨first, second, rfl, BitVec.not_lt.mp ordered⟩
  | _ :: _ :: _ :: _, h => cases h

section

variable (h : decodeShardTop tlb top = .ok item)
include h

/-- The predecessors of a merge are the children of its target, the left one first. -/
theorem decodeShardTop_merge (kind : item.kind = .merge) :
    item.target.shard ≠ 0#64 ∧ 0 < trailingZeros item.target.shard ∧
    item.predecessor.map shardTopKey =
      [⟨item.target.workchain, getChild item.target.shard true⟩,
        ⟨item.target.workchain, getChild item.target.shard false⟩] := by
  obtain ⟨left, right, hl, hr, perm⟩ := (decodeShardTop_spec h).sound.merge kind
  obtain ⟨ne, pos, rfl⟩ := child_eq_some.mp hl
  obtain ⟨-, -, rfl⟩ := child_eq_some.mp hr
  refine ⟨ne, pos, ?_⟩
  unfold decodeShardTop at h
  simp only [bind_eq_ok] at h
  obtain ⟨_, -, leaf, -, _, -, _, -, ⟨kind', predecessor⟩, kinds, result⟩ := h
  cases result
  subst kind
  obtain ⟨p, q, rfl, ordered⟩ := transitionKind_ordered kinds
  rcases perm_pair.mp perm with same | swapped
  · exact same
  · exfalso
    have lt := getChild_lt_getChild ne pos
    simp only [map_cons, map_nil, List.cons.injEq, shardTopKey, ShardRegistryKey.mk.injEq,
      and_true] at swapped
    rw [swapped.1.2, swapped.2.2] at ordered
    have le : (getChild leaf.block.shard false).toNat ≤ (getChild leaf.block.shard true).toNat :=
      BitVec.le_def.mp ordered
    exact absurd le (Nat.not_le.mpr lt)

theorem groupKey_of_single (kind : item.kind ≠ .merge) :
    ∃ shard, shardTopGroupKey item = ⟨item.kind, item.target.workchain, shard, 0⟩ ∧
      item.predecessor.map shardTopKey = [⟨item.target.workchain, shard⟩] := by
  have sound := (decodeShardTop_spec h).sound
  have one : ∃ p, item.predecessor = [p] ∧ p.workchain = item.target.workchain := by
    cases which : item.kind with
    | linear =>
      obtain ⟨p, one, here⟩ := map_eq_singleton_iff.mp (sound.linear which)
      exact ⟨p, one, congrArg ShardRegistryKey.workchain here⟩
    | split =>
      obtain ⟨p, one, workchain, -⟩ := sound.split which
      exact ⟨p, one, workchain⟩
    | merge => exact absurd which kind
  obtain ⟨p, one, workchain⟩ := one
  refine ⟨p.shard, ?_, ?_⟩
  · simp [shardTopGroupKey, one, DecodedShardTop.target, shardTopKey]
  · simp [one, shardTopKey, workchain]

theorem groupKey_of_merge (kind : item.kind = .merge) :
    shardTopGroupKey item = ⟨.merge, item.target.workchain, getChild item.target.shard true,
      getChild item.target.shard false⟩ := by
  obtain ⟨-, -, keys⟩ := decodeShardTop_merge h kind
  obtain ⟨p, q, preds, left, right⟩ := map_eq_pair keys
  have first := congrArg ShardRegistryKey.shard left
  have second := congrArg ShardRegistryKey.shard right
  change p.shard = _ at first
  change q.shard = _ at second
  simp [shardTopGroupKey, preds, kind, first, second, DecodedShardTop.target, shardTopKey]

theorem shardTopGroupClaims_eq :
    shardTopGroupClaims (shardTopGroupKey item) = item.predecessor.map shardTopKey := by
  by_cases kind : item.kind = .merge
  · rw [groupKey_of_merge h kind, (decodeShardTop_merge h kind).2.2]
    rfl
  · obtain ⟨shard, key, preds⟩ := groupKey_of_single h kind
    simp [key, preds, shardTopGroupClaims, kind]

theorem shardTopGroupKey_eq (h' : decodeShardTop tlb top' = .ok item')
    (kind : item.kind = item'.kind) {k : ShardRegistryKey}
    (mem : k ∈ item.predecessor.map shardTopKey) (mem' : k ∈ item'.predecessor.map shardTopKey) :
    shardTopGroupKey item = shardTopGroupKey item' := by
  by_cases which : item.kind = .merge
  · obtain ⟨ne, pos, keys⟩ := decodeShardTop_merge h which
    obtain ⟨ne', pos', keys'⟩ := decodeShardTop_merge h' (kind ▸ which)
    have child {t : ShardRegistryKey} (mem : k ∈ [⟨t.workchain, getChild t.shard true⟩,
        (⟨t.workchain, getChild t.shard false⟩ : ShardRegistryKey)]) :
        ∃ left, k = ⟨t.workchain, getChild t.shard left⟩ := by
      rw [mem_pair] at mem
      exact mem.elim (⟨true, ·⟩) (⟨false, ·⟩)
    obtain ⟨left, same⟩ := child (keys ▸ mem)
    obtain ⟨left', same'⟩ := child (keys' ▸ mem')
    rw [same, ShardRegistryKey.mk.injEq] at same'
    rw [groupKey_of_merge h which, groupKey_of_merge h' (kind ▸ which), same'.1,
      (getChild_inj ⟨ne, pos⟩ ⟨ne', pos'⟩ same'.2).1]
  · obtain ⟨shard, key, preds⟩ := groupKey_of_single h which
    obtain ⟨shard', key', preds'⟩ := groupKey_of_single h' (kind ▸ which)
    rw [preds, mem_singleton] at mem
    rw [preds', mem_singleton, mem, ShardRegistryKey.mk.injEq] at mem'
    rw [key, key', kind, mem'.1, mem'.2]

end

/-- How a leaf has to be marked for a transition of each kind. -/
def Marks (kind : ShardTransitionKind) (fields : ShardDescriptorFields) : Prop :=
  match kind with
  | .linear => fields.beforeSplit = false ∧ fields.beforeMerge = false
  | .split => fields.beforeSplit = true ∧ fields.beforeMerge = false
  | .merge => fields.beforeMerge = true

theorem Marks.kind_eq {kind kind' : ShardTransitionKind} {fields : ShardDescriptorFields}
    (h : Marks kind fields) (h' : Marks kind' fields) : kind = kind' := by
  cases kind <;> cases kind' <;> simp_all [Marks]

theorem Transits.marks (h : Transits tlb leaves ltLimit items t) :
    ∀ k ∈ t.consumes, ∃ leaf, leaves[k]? = some leaf ∧ Marks t.kind leaf.fields := by
  intro k mem
  cases h with
  | linear _ _ _ found _ steady =>
    obtain rfl := mem_singleton.mp mem
    exact ⟨_, found, steady⟩
  | split _ _ _ _ _ found _ _ _ _ _ _ marked =>
    obtain rfl := mem_singleton.mp mem
    exact ⟨_, found, marked⟩
  | @merge item _ _ kind found =>
    obtain ⟨claim, inside, rfl⟩ := mem_map.mp mem
    obtain ⟨leaf, here, -, marked, -⟩ := found claim inside
    refine ⟨leaf, here, ?_⟩
    change Marks item.kind leaf.fields
    rw [kind]
    exact marked

section

variable (h : Checked tlb leaves ltLimit batch items [t₀] [t])
include h

theorem Checked.single :
    (∃ tips, tips.Perm items ∧ GroupOf tips t₀) ∧ (items.map (·.target)).Nodup ∧
      verifyShardRegistryTransition tlb leaves ltLimit t₀ = .ok t := by
  obtain ⟨groups, grouping, -, same⟩ := plan_grouping h.planning
  have one : (groups.map (·.2)).Perm [t₀] := by
    rw [same]
    exact perm_sortByKey.symm
  obtain ⟨g, rfl, rfl⟩ := map_eq_singleton_iff.mp (perm_singleton.mp one)
  refine ⟨⟨g.1, by simpa using grouping.tips, grouping.group g (by simp)⟩, grouping.targets, ?_⟩
  cases mapM_eq_ok.mp h.verifying with
  | cons head _ => exact head

/-- A batch that passes consumes the predecessors of each of its tips, under the marks of their
kind. -/
theorem Checked.consumes (mem : item ∈ items) :
    t.consumes = item.predecessor.map shardTopKey ∧
      ∀ k ∈ t.consumes, ∃ leaf, leaves[k]? = some leaf ∧ Marks item.kind leaf.fields := by
  obtain ⟨⟨tips, perm, group⟩, -, verified⟩ := h.single
  have sound (item : DecodedShardTop) (mem : item ∈ items) := (decoded_sound h.decoding item mem).1
  have transits := h.transits mem_cons_self
  have inTips := perm.mem_iff.mpr mem
  have kinds : t.kind = t₀.kind := by
    unfold verifyShardRegistryTransition at verified
    simp only [bind_eq_ok] at verified
    obtain ⟨_, -, _, -, _, -, _, -, same⟩ := verified
    cases same
    rfl
  have both : t₀.consumes = item.predecessor.map shardTopKey ∧ t₀.kind = item.kind := by
    cases group with
    | alone =>
      obtain rfl := mem_singleton.mp inTips
      exact ⟨rfl, rfl⟩
    | @pair first second key _ parent₁ parent₂ paired =>
      obtain ⟨-, -, -, -, rfl⟩ := GroupOf.pairSplit_eq_ok paired
      obtain ⟨kind, p, single, rfl⟩ :=
        (sound item mem).parentKey_eq_some (GroupOf.parentKey_of_mem parent₁ parent₂ inTips)
      simp [single, kind]
  refine ⟨(verify_keys verified).1.trans both.1, ?_⟩
  rw [← both.2, ← kinds]
  exact transits.marks

theorem Checked.disjoint (h' : Checked tlb leaves ltLimit batch' items' [t₀'] [t'])
    (mem : item ∈ items) (mem' : item' ∈ items')
    (differ : shardTopGroupKey item ≠ shardTopGroupKey item') :
    t.consumes.Disjoint t'.consumes := by
  intro k consumed consumed'
  obtain ⟨preds, marks⟩ := h.consumes mem
  obtain ⟨preds', marks'⟩ := h'.consumes mem'
  obtain ⟨leaf, found, marked⟩ := marks k consumed
  obtain ⟨leaf', found', marked'⟩ := marks' k consumed'
  rw [found, Option.some.injEq] at found'
  subst found'
  obtain ⟨top, -, decoded⟩ := exists_of_mem_mapM h.decoding mem
  obtain ⟨top', -, decoded'⟩ := exists_of_mem_mapM h'.decoding mem'
  exact differ (shardTopGroupKey_eq decoded decoded' (marked.kind_eq marked') (preds ▸ consumed)
    (preds' ▸ consumed'))

end

end Passing

/-! ## The loop over the groups -/

section Loop

variable {tlb : Codec} {leaves : LeafMap} {ltLimit : UInt64} {seen : List ProjectedShardTop}
  {groups : List TransitionGroup} {g : TransitionGroup} {batch : List ShardTop}

/-- A batch that passes, made of candidates of one group. -/
structure Passes (tlb : Codec) (leaves : LeafMap) (ltLimit : UInt64)
    (candidates : List ProjectedShardTop) (key : GroupKey) (batch : List ShardTop) : Prop where
  members : ∀ top ∈ batch, ∃ c ∈ candidates, c.top = top ∧ InGroup tlb key c
  valid : shardTopBatchValid tlb leaves ltLimit batch = true

theorem Passes.mono {candidates : List ProjectedShardTop}
    (h : Passes tlb leaves ltLimit seen key batch) (sub : ∀ c ∈ seen, c ∈ candidates) :
    Passes tlb leaves ltLimit candidates key batch := by
  refine ⟨?_, h.valid⟩
  intro top mem
  obtain ⟨c, inside, rest⟩ := h.members top mem
  exact ⟨c, sub c inside, rest⟩

theorem Groups.selected (h : Groups tlb seen groups) (mem : g ∈ groups)
    (some_ : selectShardTopGroup tlb leaves ltLimit g ≠ []) :
    Passes tlb leaves ltLimit seen g.key (selectShardTopGroup tlb leaves ltLimit g) := by
  unfold selectShardTopGroup at some_ ⊢
  by_cases kind : g.key.kind = .split
  · simp only [if_pos kind] at some_ ⊢
    cases found : g.left.findSome? fun l =>
        (g.right.find? fun r => shardTopBatchValid tlb leaves ltLimit [l.top, r.top]).map fun r =>
          [l.top, r.top] with
    | none => simp [found] at some_
    | some batch =>
      obtain ⟨l, inLeft, paired⟩ := exists_of_findSome?_eq_some found
      obtain ⟨r, right, rfl⟩ := Option.map_eq_some_iff.mp paired
      obtain ⟨mem₁, item₁, -, decoded₁, here₁, -⟩ := ((h.sides g mem kind l).1.mp inLeft)
      obtain ⟨mem₂, item₂, -, decoded₂, here₂, -⟩ :=
        ((h.sides g mem kind r).2.mp (mem_of_find?_eq_some right))
      have valid := find?_some right
      refine ⟨?_, by simpa using valid⟩
      intro top inside
      simp only [Option.getD_some, mem_cons, not_mem_nil, or_false] at inside
      rcases inside with rfl | rfl
      · exact ⟨l, mem₁, rfl, item₁, decoded₁, here₁⟩
      · exact ⟨r, mem₂, rfl, item₂, decoded₂, here₂⟩
  · simp only [if_neg kind] at some_ ⊢
    cases found : g.candidates.find? fun c => shardTopBatchValid tlb leaves ltLimit [c.top] with
    | none => simp [found] at some_
    | some c =>
      obtain ⟨inSeen, inGroup⟩ :=
        (h.candidates g mem kind c).mp (mem_of_find?_eq_some found)
      have valid := find?_some found
      refine ⟨?_, by simpa using valid⟩
      intro top inside
      obtain rfl : top = c.top := by simpa using inside
      exact ⟨c, inSeen, rfl, inGroup⟩

/-- A batch that passes is one tip of a kind other than a split, or the two sides of a split. -/
theorem Passes.shape (h : Passes tlb leaves ltLimit seen key batch) :
    (key.kind ≠ .split ∧ ∃ c ∈ seen, InGroup tlb key c ∧
      shardTopBatchValid tlb leaves ltLimit [c.top] = true) ∨
    (key.kind = .split ∧ ∃ l ∈ seen, ∃ r ∈ seen, OnSide tlb key true l ∧ OnSide tlb key false r ∧
      shardTopBatchValid tlb leaves ltLimit [l.top, r.top] = true) := by
  obtain ⟨items, t₀, t, checked⟩ := shardTopBatchValid_iff.mp h.valid
  obtain ⟨⟨tips, perm, group⟩, -, verified⟩ := checked.single
  have candidate (item : DecodedShardTop) (mem : item ∈ tips) : ∃ c ∈ seen,
      decodeShardTop tlb c.top = .ok item ∧ shardTopGroupKey item = key ∧ item.Sound := by
    obtain ⟨top, inside, decoded⟩ := exists_of_mem_mapM checked.decoding (perm.mem_iff.mp mem)
    obtain ⟨c, inSeen, rfl, inGroup⟩ := h.members top inside
    exact ⟨c, inSeen, decoded, (inGroup_iff decoded).mp inGroup,
      (decodeShardTop_spec decoded).sound⟩
  cases group with
  | @alone item single =>
    obtain ⟨c, inSeen, decoded, here, sound⟩ := candidate item mem_cons_self
    refine .inl ⟨?_, c, inSeen, ⟨item, decoded, here⟩, ?_⟩
    · rw [← here]
      exact sound.parentKey_eq_none.mp single
    · obtain rfl := perm_singleton.mp perm.symm
      exact shardTopBatchValid_iff.mpr ⟨[item], _, t, mapM_eq_ok.mpr (.cons decoded .nil),
        checked.planning, checked.verifying⟩
  | @pair first second parent _ parent₁ parent₂ paired =>
    obtain ⟨l, inSeen₁, decoded₁, here₁, sound₁⟩ := candidate first (by simp)
    obtain ⟨r, inSeen₂, decoded₂, here₂, sound₂⟩ := candidate second (by simp)
    obtain ⟨left, right, ne, pos, -⟩ := GroupOf.pairSplit_eq_ok paired
    have kind : key.kind = .split := by
      rw [← here₁]
      exact (sound₁.parentKey_eq_some parent₁).1
    have splits : child key.first true = some (getChild parent.shard true) := by
      obtain ⟨-, p, single, rfl⟩ := sound₁.parentKey_eq_some parent₁
      rw [← here₁, child_eq_some]
      simp [shardTopGroupKey, single, shardTopKey] at ne pos ⊢
      exact ⟨ne, pos⟩
    have sides : getChild parent.shard false ≠ getChild parent.shard true := by
      intro same
      cases (getChild_inj ⟨ne, pos⟩ ⟨ne, pos⟩ same).2
    refine .inr ⟨kind, l, inSeen₁, r, inSeen₂, ?_, ?_, ?_⟩
    · exact (onSide_iff decoded₁).mpr ⟨here₁, kind, _, splits, by simp [left]⟩
    · exact (onSide_iff decoded₂).mpr ⟨here₂, kind, _, splits, by simp [right, sides]⟩
    · refine shardTopBatchValid_iff.mpr ⟨[first, second], t₀, t,
        mapM_eq_ok.mpr (.cons decoded₁ (.cons decoded₂ .nil)), ?_, checked.verifying⟩
      apply plan_perm perm.symm _ checked.planning
      intro item mem
      exact (decoded_sound checked.decoding item mem).1

section

variable (h : Groups tlb seen groups) (mem : g ∈ groups)
include h mem

theorem Groups.selects (passes : Passes tlb leaves ltLimit seen g.key batch) :
    selectShardTopGroup tlb leaves ltLimit g ≠ [] := by
  unfold selectShardTopGroup
  rcases passes.shape with ⟨kind, c, inSeen, inGroup, valid⟩ |
    ⟨kind, l, inSeen₁, r, inSeen₂, side₁, side₂, valid⟩
  · rw [if_neg kind]
    have inside := (h.candidates g mem kind c).mpr ⟨inSeen, inGroup⟩
    cases found : g.candidates.find? fun c => shardTopBatchValid tlb leaves ltLimit [c.top] with
    | none =>
      have := find?_eq_none.mp found c inside
      exact absurd valid this
    | some c' => simp
  · rw [if_pos kind]
    have inLeft := (h.sides g mem kind l).1.mpr ⟨inSeen₁, side₁⟩
    have inRight := (h.sides g mem kind r).2.mpr ⟨inSeen₂, side₂⟩
    cases found : g.left.findSome? fun l =>
        (g.right.find? fun r => shardTopBatchValid tlb leaves ltLimit [l.top, r.top]).map fun r =>
          [l.top, r.top] with
    | none =>
      have none_ := findSome?_eq_none_iff.mp found l inLeft
      rw [Option.map_eq_none_iff, find?_eq_none] at none_
      exact absurd valid (none_ r inRight)
    | some batch =>
      obtain ⟨l', -, paired⟩ := exists_of_findSome?_eq_some found
      obtain ⟨r', -, rfl⟩ := Option.map_eq_some_iff.mp paired
      simp

/-- What a group contributes is one transition that consumes what the group claims. -/
theorem Groups.contributes (some_ : selectShardTopGroup tlb leaves ltLimit g ≠ []) :
    ∃ items t₀ t item, Checked tlb leaves ltLimit (selectShardTopGroup tlb leaves ltLimit g)
      items [t₀] [t] ∧ item ∈ items ∧ shardTopGroupKey item = g.key ∧
      t.consumes = shardTopGroupClaims g.key := by
  have passes := h.selected mem some_
  obtain ⟨items, t₀, t, checked⟩ := shardTopBatchValid_iff.mp passes.valid
  obtain ⟨top, inside⟩ := exists_mem_of_ne_nil _ some_
  obtain ⟨c, -, rfl, item, decoded, here⟩ := passes.members top inside
  have inItems : item ∈ items := by
    obtain ⟨pairs, fsts, rfl, each⟩ := mapM_pairs checked.decoding
    rw [← fsts] at inside
    obtain ⟨p, hp, same⟩ := mem_map.mp inside
    have ok := each p hp
    rw [same, decoded] at ok
    exact mem_map.mpr ⟨p, hp, (Except.ok.inj ok).symm⟩
  refine ⟨items, t₀, t, item, checked, inItems, here, ?_⟩
  rw [← here, shardTopGroupClaims_eq decoded]
  exact (checked.consumes inItems).1

theorem Groups.claims_disjoint {g' : TransitionGroup} (mem' : g' ∈ groups)
    (differ : g.key ≠ g'.key) (some_ : selectShardTopGroup tlb leaves ltLimit g ≠ [])
    (some_' : selectShardTopGroup tlb leaves ltLimit g' ≠ []) :
    (shardTopGroupClaims g.key).Disjoint (shardTopGroupClaims g'.key) := by
  obtain ⟨items, t₀, t, item, checked, inItems, here, same⟩ := h.contributes mem some_
  obtain ⟨items', t₀', t', item', checked', inItems', here', same'⟩ := h.contributes mem' some_'
  rw [← same, ← same']
  exact checked.disjoint checked' inItems inItems' (by rw [here, here']; exact differ)

end

/-- The loop never meets a consumed claim in a group that would contribute. -/
theorem visit_all {rest : List TransitionGroup} {s : Selection}
    (apart : rest.Pairwise fun g g' => selectShardTopGroup tlb leaves ltLimit g ≠ [] →
      selectShardTopGroup tlb leaves ltLimit g' ≠ [] →
      (shardTopGroupClaims g.key).Disjoint (shardTopGroupClaims g'.key))
    (free : ∀ g ∈ rest, selectShardTopGroup tlb leaves ltLimit g ≠ [] →
      s.consumed.Disjoint (shardTopGroupClaims g.key)) :
    (rest.foldl (Selection.visit tlb leaves ltLimit) s).selected =
      s.selected ++ rest.flatMap (selectShardTopGroup tlb leaves ltLimit) := by
  induction rest generalizing s with
  | nil => simp
  | cons g rest ih =>
    obtain ⟨first, later⟩ := pairwise_cons.mp apart
    rw [foldl_cons, flatMap_cons]
    cases batch : selectShardTopGroup tlb leaves ltLimit g with
    | nil =>
      have same : s.visit tlb leaves ltLimit g = s := by
        unfold Selection.visit
        dsimp only
        rw [batch]
        split <;> rfl
      rw [same, ih later fun g' mem => free g' (mem_cons_of_mem _ mem), nil_append]
    | cons top tops =>
      have some_ : selectShardTopGroup tlb leaves ltLimit g ≠ [] := by simp [batch]
      have unclaimed : (shardTopGroupClaims g.key).any (s.consumed.contains ·) = false := by
        rw [any_eq_false]
        intro k claimed
        have fresh := (free g mem_cons_self some_).symm claimed
        simpa using fresh
      have next : s.visit tlb leaves ltLimit g =
          ⟨s.selected ++ (top :: tops), s.consumed ++ shardTopGroupClaims g.key⟩ := by
        unfold Selection.visit
        dsimp only
        rw [unclaimed, batch]
        rfl
      rw [next, ih later, append_assoc]
      intro g' mem contributes k inBoth claimed
      rcases mem_append.mp inBoth with old | new
      · exact free g' (mem_cons_of_mem _ mem) contributes old claimed
      · exact first g' mem some_ contributes new claimed

end Loop

/-! ## The selected tips together -/

section Together

variable {tlb : Codec} {leaves : LeafMap} {ltLimit : UInt64} {workchains : Set (BitVec 32)}
  {t : ShardRegistryTransition} {items : List DecodedShardTop}
  {candidates seen : List ProjectedShardTop} {groups : List TransitionGroup} {tops : List ShardTop}

/-- Transitions that consume different leaves of a tiled map have different outputs. -/
theorem Exchanges.outputs_disjoint {t' : ShardRegistryTransition} (ex : Exchanges t)
    (ex' : Exchanges t') (tiled : Tiled workchains leaves) (there : ∀ k ∈ t.consumes, k ∈ leaves)
    (there' : ∀ k ∈ t'.consumes, k ∈ leaves) (apart : t.consumes.Disjoint t'.consumes) :
    t.outputKeys.Disjoint t'.outputKeys := by
  obtain ⟨part, consumed, produced⟩ := ex
  obtain ⟨part', consumed', produced'⟩ := ex'
  intro k output output'
  obtain ⟨p, hp⟩ := produced.inhabited k output
  obtain ⟨c, hc, inside⟩ := (consumed.fills p).mp (produced.subset output hp)
  obtain ⟨c', hc', inside'⟩ := (consumed'.fills p).mp (produced'.subset output' hp)
  have same := tiled.eq_of_mem (Std.ExtTreeMap.mem_keys.mpr (there c hc))
    (Std.ExtTreeMap.mem_keys.mpr (there' c' hc')) inside inside'
  exact apart hc (same ▸ hc')

/-- Batches that each pass as one transition, and consume nothing in common, pass together. -/
theorem checked_together (tiled : Tiled workchains leaves)
    {steps : List (List ShardTop × ShardRegistryTransition)}
    (each : ∀ s ∈ steps, ∃ items t₀, Checked tlb leaves ltLimit s.1 items [t₀] [s.2])
    (once : ((steps.map (·.2)).flatMap (·.consumes)).Nodup) :
    ∃ items planned transitions,
      Checked tlb leaves ltLimit (steps.flatMap (·.1)) items planned transitions := by
  have detailed : ∀ s ∈ steps,
      ∃ d : List DecodedShardTop × List DecodedShardTop × ShardRegistryTransition,
        Checked tlb leaves ltLimit s.1 d.1 [d.2.2] [s.2] ∧ d.2.1.Perm d.1 ∧ GroupOf d.2.1 d.2.2 ∧
        verifyShardRegistryTransition tlb leaves ltLimit d.2.2 = .ok s.2 := by
    intro s mem
    obtain ⟨items, t₀, checked⟩ := each s mem
    obtain ⟨⟨tips, perm, group⟩, -, verified⟩ := checked.single
    exact ⟨(items, tips, t₀), checked, perm, group, verified⟩
  obtain ⟨rows, rfl, row⟩ := exists_pairs detailed
  clear each detailed
  have consumes : (rows.map (·.2.2.2)).flatMap (·.consumes) =
      ((rows.map Prod.fst).map (·.2)).flatMap (·.consumes) := by
    rw [map_map, flatMap_map, flatMap_map]
    apply flatMap_congr
    intro d mem
    exact (verify_keys (row d mem).2.2.2).1.symm
  rw [← consumes] at once
  have decoding : ((rows.map Prod.fst).flatMap (·.1)).mapM (decodeShardTop tlb) =
      .ok (rows.flatMap (·.2.1)) := by
    rw [flatMap_map]
    exact mapM_flatMap fun d mem => (row d mem).1.decoding
  have grouping : Grouping (rows.flatMap (·.2.1)) (rows.map (·.2.2)) := by
    have tips : ((rows.map (·.2.2)).flatMap (·.1)).Perm (rows.flatMap (·.2.1)) := by
      rw [flatMap_map]
      exact List.Perm.flatMap_left _ fun d mem => (row d mem).2.1
    refine ⟨?_, tips, ?_⟩
    · intro g mem
      obtain ⟨d, inside, rfl⟩ := mem_map.mp mem
      exact (row d inside).2.2.1
    · apply (tips.map _).nodup_iff.mp
      have keys : ((rows.map (·.2.2)).flatMap (·.1)).map (·.target) =
          rows.flatMap fun d => d.2.2.2.outputKeys := by
        rw [flatMap_map, map_flatMap]
        apply flatMap_congr
        intro d mem
        exact (row d mem).2.2.1.outputs.symm
      rw [keys, nodup_flatMap]
      have exchanges (d) (mem : d ∈ rows) : Exchanges d.2.2.2 :=
        ((row d mem).1.mem_planned mem_cons_self).1
      have there (d) (mem : d ∈ rows) : ∀ k ∈ d.2.2.2.consumes, k ∈ leaves := by
        have claims : Claims d.2.2.2 := ((row d mem).1.mem_planned mem_cons_self).2
        have found := verify_there claims (row d mem).2.2.2
        rwa [(verify_keys (row d mem).2.2.2).1] at found
      constructor
      · intro d mem
        obtain ⟨part, -, produced⟩ := exchanges d mem
        exact produced.nodup
      · rw [flatMap_map, nodup_flatMap] at once
        apply once.2.imp_of_mem
        intro d d' mem mem' apart
        exact (exchanges d mem).outputs_disjoint (exchanges d' mem') tiled (there d mem)
          (there d' mem') apart
  have spent : Once (rows.map (·.2.2)) := by
    unfold Once
    rw [map_map]
    exact once
  have planning := grouping.planned spent fun item mem => (decoded_sound decoding item mem).1
  have verifying : (rows.map (·.2.2.2)).mapM (verifyShardRegistryTransition tlb leaves ltLimit) =
      .ok ((rows.map Prod.fst).map (·.2)) := by
    rw [mapM_map, mapM_eq_ok, map_map, forall₂_map_right_iff, forall₂_same]
    intro d mem
    exact (row d mem).2.2.2
  rw [map_map] at planning
  have sorted : (sortByKey ShardRegistryTransition.firstKey (rows.map (·.2.2.2))).Perm
      (rows.map (·.2.2.2)) := perm_sortByKey
  obtain ⟨transitions, verified, -⟩ := mapM_perm sorted.symm verifying
  exact ⟨_, _, transitions, ⟨decoding, planning, verified⟩⟩

theorem Transits.output
    (h : Transits tlb leaves ltLimit items t) {o : ShardRegistryLeaf} (mem : o ∈ t.outputs) :
    ∃ item ∈ items, o.block = item.leaf.block ∧ o.fields.fees = item.leaf.fields.fees ∧
      o.fields.created = item.leaf.fields.created ∧
      (o = item.leaf ∨ ∃ tag fields, tlb.decode item.leaf.descriptor = some (tag, fields) ∧
        tlb.encode tag o.fields = some o.descriptor) := by
  cases h with
  | @linear item leaf output inside _ _ _ _ _ _ inherits =>
    obtain rfl := mem_singleton.mp mem
    refine ⟨item, inside, inherit_block inherits, ?_⟩
    unfold inheritShardRegistryFSM at inherits
    split at inherits
    · cases inherits
      exact ⟨rfl, rfl, .inl rfl⟩
    · simp only [bind_eq_ok, storeMasterShardDescriptor_eq_ok] at inherits
      obtain ⟨tag, loaded, descriptor, encoded, same⟩ := inherits
      cases same
      refine ⟨rfl, rfl, .inr ?_⟩
      unfold loadMasterShardDescriptorTag at loaded
      split at loaded
      · cases loaded
      next tag' fields decoded =>
        cases loaded
        exact ⟨tag, fields, decoded, encoded⟩
  | @split first second _ _ _ _ mem₁ mem₂ =>
    rw [mem_pair] at mem
    rcases mem with rfl | rfl
    · exact ⟨first, mem₁, rfl, rfl, rfl, .inl rfl⟩
    · exact ⟨second, mem₂, rfl, rfl, rfl, .inl rfl⟩
  | @merge item _ inside =>
    obtain rfl := mem_singleton.mp mem
    exact ⟨item, inside, rfl, rfl, rfl, .inl rfl⟩

/-- The fees of these tips fit into one `ShardFees` dictionary. -/
def FeesFit (tlb : Codec) (tops : List ShardTop) : Prop :=
  ∀ entries : List (ShardRegistryKey × CurrencyCollection × CurrencyCollection),
    (entries.map (·.1)).Nodup →
    (∀ e ∈ entries, ∃ top ∈ tops, ∃ item, decodeShardTop tlb top = .ok item ∧
      e = (item.target, item.leaf.fields.fees, item.leaf.fields.created)) →
    tlb.feesFit entries = true

/-- A candidate's descriptor was written with the newer constructor, as `buildSelectedShardTop`
writes it. -/
def Projected (tlb : Codec) (c : ProjectedShardTop) : Prop :=
  ∃ fields, tlb.encode .a fields = some c.top.descriptor

theorem apply_candidates
    {planned transitions : List ShardRegistryTransition} (codec : tlb.RoundTrips)
    (room : tlb.NewDescriptorsRoomy) (writable : Writable workchains leaves)
    (projected : ∀ c ∈ candidates, Projected tlb c) (fit : FeesFit tlb tops)
    (from_ : ∀ top ∈ tops, ∃ c ∈ candidates, c.top = top)
    (checked : Checked tlb leaves ltLimit tops items planned transitions) :
    ∃ r', ShardRegistry.apply tlb ⟨leaves, ∅⟩ tops ltLimit = .ok r' := by
  have roomy : ∀ t ∈ transitions, ∀ o ∈ t.outputs, o.descriptor.Roomy := by
    intro t mem o output
    obtain ⟨item, inside, -, -, -, same | ⟨tag, fields, decoded, encoded⟩⟩ :=
      (checked.transits mem).output output
    all_goals
      obtain ⟨top, inTops, ok⟩ := exists_of_mem_mapM checked.decoding inside
      obtain ⟨c, inCandidates, rfl⟩ := from_ top inTops
      obtain ⟨written, encodes⟩ := projected c inCandidates
      have descriptor : item.leaf.descriptor = c.top.descriptor := by
        obtain ⟨fields, -, leaf⟩ :=
          decodeShardRegistryLeaf_eq_ok.mp (decodeShardTop_spec ok).decoded
        rw [leaf]
        rfl
    · rw [same, descriptor]
      exact room encodes
    · rw [descriptor, codec.decode_encode encodes] at decoded
      cases decoded
      exact room encoded
  have fees : ∀ accepted : LeafMap,
      (∀ {k : ShardRegistryKey} {o : ShardRegistryLeaf}, accepted[k]? = some o →
        shardTopKey o.block = k ∧ ∃ t ∈ transitions, o ∈ t.outputs) →
      buildShardFeesDictionary tlb accepted = .ok () := by
    intro accepted inside
    unfold buildShardFeesDictionary
    rw [require_eq_ok]
    apply fit
    · rw [map_map]
      change ((sortedShardRegistryLeaves accepted).map fun leaf => shardTopKey leaf.block).Nodup
      rw [← keys_eq fun found => (inside found).1]
      exact nodup_keys accepted
    · intro e mem
      obtain ⟨o, stored, rfl⟩ := mem_map.mp mem
      obtain ⟨k, found⟩ := mem_sortedShardRegistryLeaves.mp stored
      obtain ⟨-, t, inBatch, output⟩ := inside found
      obtain ⟨item, inItems, block, fees, created, -⟩ := (checked.transits inBatch).output output
      obtain ⟨top, inTops, ok⟩ := exists_of_mem_mapM checked.decoding inItems
      refine ⟨top, inTops, item, ok, ?_⟩
      rw [block, fees, created]
      rfl
  obtain ⟨r', applied, -⟩ := apply_of_checked (r := ⟨leaves, ∅⟩) writable checked roomy fees
  exact ⟨r', applied⟩

theorem flatMap_filter_isEmpty (f : α → List β) (l : List α) :
    (l.filter fun x => !(f x).isEmpty).flatMap f = l.flatMap f := by
  induction l with
  | nil => rfl
  | cons x l ih =>
    cases empty : f x with
    | nil => simp [empty, ih]
    | cons => simp [empty, ih]

theorem decoded_targets (decoding : tops.mapM (decodeShardTop tlb) = .ok items) :
    items.map (·.target) = tops.map fun top => shardTopKey top.block := by
  obtain ⟨pairs, rfl, rfl, each⟩ := mapM_pairs decoding
  rw [map_map, map_map]
  apply map_congr_left
  intro p mem
  change shardTopKey p.2.leaf.block = shardTopKey p.1.block
  rw [(decodeShardTop_spec (each p mem)).block]

theorem Groups.checked (h : Groups tlb seen groups) (tiled : Tiled workchains leaves)
    {ordered : List TransitionGroup} (perm : ordered.Perm groups)
    (apart : ordered.Pairwise fun g g' => selectShardTopGroup tlb leaves ltLimit g ≠ [] →
      selectShardTopGroup tlb leaves ltLimit g' ≠ [] →
      (shardTopGroupClaims g.key).Disjoint (shardTopGroupClaims g'.key)) :
    ∃ items planned transitions, Checked tlb leaves ltLimit
      (ordered.flatMap (selectShardTopGroup tlb leaves ltLimit)) items planned transitions := by
  let contributing := ordered.filter fun g => !(selectShardTopGroup tlb leaves ltLimit g).isEmpty
  have some_ (g) (mem : g ∈ contributing) :
      g ∈ groups ∧ selectShardTopGroup tlb leaves ltLimit g ≠ [] := by
    obtain ⟨inside, full⟩ := mem_filter.mp mem
    exact ⟨perm.mem_iff.mp inside, by simpa using full⟩
  have each : ∀ g ∈ contributing, ∃ t : ShardRegistryTransition,
      (∃ items t₀, Checked tlb leaves ltLimit (selectShardTopGroup tlb leaves ltLimit g) items
        [t₀] [t]) ∧ t.consumes = shardTopGroupClaims g.key := by
    intro g mem
    obtain ⟨inside, full⟩ := some_ g mem
    obtain ⟨items, t₀, t, -, checked, -, -, consumes⟩ := h.contributes inside full
    exact ⟨t, ⟨items, t₀, checked⟩, consumes⟩
  obtain ⟨pairs, fsts, each⟩ := exists_pairs each
  have once : (((pairs.map fun p => (selectShardTopGroup tlb leaves ltLimit p.1, p.2)).map
      (·.2)).flatMap (·.consumes)).Nodup := by
    rw [map_map, flatMap_map, nodup_flatMap]
    constructor
    · intro p mem
      obtain ⟨⟨items, t₀, checked⟩, -⟩ := each p mem
      obtain ⟨part, consumed, -⟩ := checked.stageable.exchanges p.2 (by simp)
      exact consumed.nodup
    · have claims : pairs.Pairwise fun p p' =>
          (shardTopGroupClaims p.1.key).Disjoint (shardTopGroupClaims p'.1.key) := by
        have full := (apart.filter fun g =>
          !(selectShardTopGroup tlb leaves ltLimit g).isEmpty).imp_of_mem fun {g g'}
            mem mem' both =>
            both (some_ g mem).2 (some_ g' mem').2
        change contributing.Pairwise _ at full
        rwa [← fsts, pairwise_map] at full
      apply claims.imp_of_mem
      intro p p' mem mem' disjoint
      change p.2.consumes.Disjoint p'.2.consumes
      rw [(each p mem).2, (each p' mem').2]
      exact disjoint
  obtain ⟨items, planned, transitions, checked⟩ := checked_together tiled (by
    intro s mem
    obtain ⟨p, inside, rfl⟩ := mem_map.mp mem
    exact (each p inside).1) once
  refine ⟨items, planned, transitions, ?_⟩
  rw [flatMap_map] at checked
  rw [← flatMap_filter_isEmpty]
  change Checked tlb leaves ltLimit (contributing.flatMap _) items planned transitions
  rw [← fsts, flatMap_map]
  exact checked

/-- All groups contribute what they would contribute alone, and the tips they contribute are
applied together. -/
theorem select_eq (codec : tlb.RoundTrips) (room : tlb.NewDescriptorsRoomy)
    (writable : Writable workchains leaves) (projected : ∀ c ∈ candidates, Projected tlb c)
    {sorted : List ProjectedShardTop} (fit : FeesFit tlb
      ((groupCandidates tlb sorted).flatMap (selectShardTopGroup tlb leaves ltLimit)))
    (sortedAs : sorted = candidates.insertionSort fun x y => (candidateCmp x.order y.order).isLE)
    {iterate : List TransitionGroup → List TransitionGroup} (order : ∀ l, (iterate l).Perm l) :
    selectShardTopTransitions tlb leaves ltLimit iterate candidates =
      .ok (sortByKey (fun top => shardTopKey top.block)
        ((groupCandidates tlb sorted).flatMap (selectShardTopGroup tlb leaves ltLimit))) := by
  have grouped : Groups tlb sorted (groupCandidates tlb sorted) := groups_groupCandidates sorted
  have seen {c : ProjectedShardTop} (mem : c ∈ sorted) : c ∈ candidates := by
    rw [sortedAs] at mem
    exact (mem_insertionSort _).mp mem
  let ordered := sortByKey (·.output) (iterate (groupCandidates tlb sorted))
  have perm : ordered.Perm (groupCandidates tlb sorted) := perm_sortByKey.trans (order _)
  have apart : ordered.Pairwise fun g g' => selectShardTopGroup tlb leaves ltLimit g ≠ [] →
      selectShardTopGroup tlb leaves ltLimit g' ≠ [] →
      (shardTopGroupClaims g.key).Disjoint (shardTopGroupClaims g'.key) := by
    have keys : (ordered.map (·.key)).Nodup := (perm.map _).nodup_iff.mpr grouped.keys
    rw [List.Nodup, pairwise_map] at keys
    apply keys.imp_of_mem
    intro g g' mem mem' differ
    exact grouped.claims_disjoint (perm.mem_iff.mp mem) (perm.mem_iff.mp mem') differ
  obtain ⟨items, planned, transitions, checked⟩ := grouped.checked writable.tiled perm apart
  have looped : (ordered.foldl (Selection.visit tlb leaves ltLimit) ⟨[], []⟩).selected =
      ordered.flatMap (selectShardTopGroup tlb leaves ltLimit) :=
    visit_all apart fun _ _ _ => disjoint_nil_left _
  have from_ : ∀ top ∈ ordered.flatMap (selectShardTopGroup tlb leaves ltLimit),
      ∃ c ∈ candidates, c.top = top := by
    intro top mem
    obtain ⟨g, inOrder, inside⟩ := mem_flatMap.mp mem
    obtain ⟨c, inSorted, same, -⟩ :=
      (grouped.selected (perm.mem_iff.mp inOrder) (ne_nil_of_mem inside)).members top inside
    exact ⟨c, seen inSorted, same⟩
  have fit : FeesFit tlb (ordered.flatMap (selectShardTopGroup tlb leaves ltLimit)) := by
    intro entries nodup inside
    refine fit entries nodup fun e mem => ?_
    obtain ⟨top, inTops, rest⟩ := inside e mem
    exact ⟨top, (perm.flatMap_right _).mem_iff.mp inTops, rest⟩
  obtain ⟨r', applied⟩ := apply_candidates codec room writable projected fit from_ checked
  have same : sortByKey (fun top => shardTopKey top.block)
      (ordered.flatMap (selectShardTopGroup tlb leaves ltLimit)) =
        sortByKey (fun top => shardTopKey top.block)
          ((groupCandidates tlb sorted).flatMap (selectShardTopGroup tlb leaves ltLimit)) := by
    apply sortByKey_eq_of_perm (perm.flatMap_right _)
    rw [← decoded_targets checked.decoding]
    obtain ⟨_, grouping, -⟩ := plan_grouping checked.planning
    exact grouping.targets
  unfold selectShardTopTransitions
  dsimp only
  rw [← sortedAs, looped, ← same]
  split
  next empty =>
    rw [List.isEmpty_iff.mp empty]
    rfl
  · exact bind_eq_ok.mpr ⟨r', applied, rfl⟩

/-- On a registry that partitions its workchains, if the fees of what the groups contribute fit, the
selection never fails, does not depend on the order of the candidates nor on that of the groups,
and takes a batch from every group that has one that passes. -/
theorem shard_top_selection (tlb : Codec) (codec : tlb.RoundTrips) (room : tlb.NewDescriptorsRoomy)
    (r : ShardRegistry)
    (partition : ∀ w, (∃ k ∈ r.leaves, k.workchain = w) → Partition (r.shardsOf w))
    (keyed : Keyed r.leaves) (roomy : Roomy r.leaves) (ltLimit : UInt64)
    (candidates : List ProjectedShardTop) (projected : ∀ c ∈ candidates, Projected tlb c)
    (distinct : ∀ c ∈ candidates, ∀ c' ∈ candidates, c.key = c'.key → c = c')
    (fit : FeesFit tlb ((groupCandidates tlb (candidates.insertionSort fun x y =>
      (candidateCmp x.order y.order).isLE)).flatMap (selectShardTopGroup tlb r.leaves ltLimit))) :
    ∃ result,
      (∀ (iterate : List TransitionGroup → List TransitionGroup) (candidates' : List _),
        (∀ l, (iterate l).Perm l) → candidates'.Perm candidates →
        selectShardTopTransitions tlb r.leaves ltLimit iterate candidates' = .ok result) ∧
      ∀ key batch, Passes tlb r.leaves ltLimit candidates key batch →
        ∃ batch', Passes tlb r.leaves ltLimit candidates key batch' ∧
          ∀ top ∈ batch', top ∈ result := by
  let sorted := candidates.insertionSort fun x y => (candidateCmp x.order y.order).isLE
  have writable : Writable _ r.leaves := ⟨tiled_of_partition partition, keyed, roomy⟩
  have grouped : Groups tlb sorted (groupCandidates tlb sorted) := groups_groupCandidates sorted
  have members (c : ProjectedShardTop) : c ∈ sorted ↔ c ∈ candidates := mem_insertionSort _
  refine ⟨sortByKey (fun top => shardTopKey top.block)
    ((groupCandidates tlb sorted).flatMap (selectShardTopGroup tlb r.leaves ltLimit)), ?_, ?_⟩
  · intro iterate candidates' order perm
    apply select_eq codec room writable _ fit _ order
    · exact fun c mem => projected c (perm.mem_iff.mp mem)
    · refine insertionSort_eq_of_perm candidateCmp ProjectedShardTop.order perm.symm ?_
      intro x hx y hy same
      exact distinct x hx y hy (congrArg (fun o : CandidateOrder => o.2.2.2) same)
  · intro key batch passes
    have passes := passes.mono fun c => (members c).mpr
    obtain ⟨g, inGroups, rfl⟩ : ∃ g ∈ groupCandidates tlb sorted, g.key = key := by
      rcases passes.shape with ⟨-, c, inSorted, inGroup, -⟩ | ⟨-, l, inSorted, -, -, side, -⟩
      · exact grouped.exists_group inSorted inGroup
      · exact grouped.exists_group inSorted side.inGroup
    have selected := grouped.selected inGroups (grouped.selects inGroups passes)
    refine ⟨_, selected.mono fun c => (members c).mp, ?_⟩
    intro top mem
    exact mem_sortByKey.mpr (mem_flatMap.mpr ⟨g, inGroups, mem⟩)

end Together

/-! ## Two candidates -/

/-- The halves of the basechain, and their next blocks. -/
def nextCodec : Codec :=
  tableCodec [(.a, plainFields (getChild root true) 7), (.a, plainFields (getChild root false) 8),
    (.a, plainFields (getChild root true) 9), (.a, plainFields (getChild root false) 10)]

def nextRegistry : ShardRegistry := resultD (ShardRegistry.parse nextCodec pairHashes) ⟨∅, ∅⟩

/-- The tip of a half. -/
def nextTop (left : Bool) (bits : Nat) (seqno next : UInt32) : ShardTop :=
  tipOn (getChild root left) bits next (getChild root left) seqno

def nextCandidates : List ProjectedShardTop :=
  [⟨[1], nextTop true 2 7 9⟩, ⟨[2], nextTop false 3 8 10⟩]

theorem shard_top_selection_pair :
    Passes nextCodec nextRegistry.leaves 100 nextCandidates
        ⟨.linear, 0#32, getChild root true, 0⟩ [nextTop true 2 7 9] ∧
      ∃ result,
        selectShardTopTransitions nextCodec nextRegistry.leaves 100 List.reverse nextCandidates =
          .ok result ∧
        selectShardTopTransitions nextCodec nextRegistry.leaves 100 id nextCandidates.reverse =
          .ok result := by
  have reached : Reachable nextCodec nextRegistry := .parse (eq_ok_resultD (by decide +kernel))
  have room : nextCodec.NewDescriptorsRoomy := tableCodec_roomy (by decide)
  have projected : ∀ c ∈ nextCandidates, Projected nextCodec c := by
    intro c mem
    simp only [nextCandidates, mem_cons, not_mem_nil, or_false] at mem
    rcases mem with rfl | rfl
    · exact ⟨plainFields (getChild root true) 9, rfl⟩
    · exact ⟨plainFields (getChild root false) 10, rfl⟩
  have distinct : ∀ c ∈ nextCandidates, ∀ c' ∈ nextCandidates, c.key = c'.key → c = c' := by
    intro c mem c' mem' same
    apply inj_on_of_nodup_map (f := ProjectedShardTop.key) _ mem mem' same
    decide
  obtain ⟨result, selects, -⟩ := shard_top_selection nextCodec (tableCodec_roundTrips _) room
    nextRegistry reached.partition reached.keyed (reached.roomy room) 100
    nextCandidates projected distinct fun _ _ _ => rfl
  refine ⟨⟨?_, by decide +kernel⟩, result, ?_, ?_⟩
  · intro top mem
    obtain rfl := mem_singleton.mp mem
    have decoded : decodeShardTop nextCodec (nextTop true 2 7 9) =
        .ok (resultD (decodeShardTop nextCodec (nextTop true 2 7 9)) ⟨default, .linear, []⟩) :=
      eq_ok_resultD (by decide +kernel)
    exact ⟨⟨[1], nextTop true 2 7 9⟩, by simp [nextCandidates], rfl, _, decoded, by decide +kernel⟩
  · exact selects _ _ (fun l => reverse_perm l) (.refl _)
  · exact selects _ _ (fun l => .refl l) (reverse_perm _)

/-- The halves of the basechain, whose next blocks collected 2^119 nanograms each. -/
def richCodec : Codec :=
  { tableCodec [(.a, plainFields (getChild root true) 7), (.a, plainFields (getChild root false) 8),
      (.a, { plainFields (getChild root true) 9 with fees := ⟨2 ^ 119, []⟩ }),
      (.a, { plainFields (getChild root false) 10 with fees := ⟨2 ^ 119, []⟩ })] with
    -- the sum of all fees is stored in fifteen bytes
    feesFit := fun entries => (entries.map fun e => e.2.1.coins).sum < 2 ^ 120 }

def richRegistry : ShardRegistry := resultD (ShardRegistry.parse richCodec pairHashes) ⟨∅, ∅⟩

/-- Either tip can be selected alone; together their fees do not fit, and nothing is selected. -/
theorem fees_that_do_not_fit_select_nothing :
    Reachable richCodec richRegistry ∧
    (∀ c ∈ nextCandidates, Projected richCodec c ∧
      (selectShardTopTransitions richCodec richRegistry.leaves 100 id [c]).isOk = true) ∧
    (selectShardTopTransitions richCodec richRegistry.leaves 100 id nextCandidates).isOk =
    false := by
  refine ⟨.parse (eq_ok_resultD (by decide +kernel)), ?_, by decide +kernel⟩
  intro c mem
  simp only [nextCandidates, mem_cons, not_mem_nil, or_false] at mem
  rcases mem with rfl | rfl
  · exact ⟨⟨{ plainFields (getChild root true) 9 with fees := ⟨2 ^ 119, []⟩ }, rfl⟩,
      by decide +kernel⟩
  · exact ⟨⟨{ plainFields (getChild root false) 10 with fees := ⟨2 ^ 119, []⟩ }, rfl⟩,
      by decide +kernel⟩

end Gton.Collator
