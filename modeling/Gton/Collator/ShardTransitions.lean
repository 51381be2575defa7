import Gton.Collator.ShardRegistry

/-!
# What a batch of tips does

Each stage of `Apply` by its result: what a decoded tip says, which transitions are planned from
the tips, what a verified transition guarantees of the registered leaves, and which leaves the
registry has once all transitions are staged.
-/

namespace Gton.Collator

open Gton.Shard
open Gton.Lib.Fallible
open List

/-! ## Descriptors -/

variable {shardID : BitVec 64} {tlb : Codec} {leaf output : ShardRegistryLeaf}
  {item : DecodedShardTop} {t : ShardRegistryTransition} {decoded : List DecodedShardTop}
  {transitions : List ShardRegistryTransition} {u : Unit} {descriptor : Cell}
  {workchain : BitVec 32} {keys : List ShardRegistryKey}

@[simp] theorem childOf_eq_ok {c : BitVec 64} {left : Bool} :
    childOf shardID left = .ok c ↔ child shardID left = some c := by
  unfold childOf
  cases child shardID left <;> simp

/-- What a descriptor has to satisfy to be read. -/
structure Readable (fields : ShardDescriptorFields) : Prop where
  flags : fields.flags = 0
  oneTransition : ¬ (fields.beforeSplit = true ∧ fields.beforeMerge = true)
  rootHash : fields.rootHash.length = 32
  fileHash : fields.fileHash.length = 32

theorem parseShardDescriptorFields_eq_ok {fields : ShardDescriptorFields} :
    parseShardDescriptorFields tlb descriptor = .ok fields ↔
      descriptor.special = false ∧ (∃ tag, tlb.decode descriptor = some (tag, fields)) ∧
        Readable fields := by
  unfold parseShardDescriptorFields
  cases decoded : tlb.decode descriptor with
  | none => simp
  | some result =>
    obtain ⟨tag, got⟩ := result
    simp only [require_eq_ok, bind_eq_ok, Bool.not_eq_true', beq_iff_eq, Bool.and_eq_true,
      Option.some.injEq, Prod.mk.injEq]
    constructor
    · rintro ⟨_, ordinary, _, flags, _, one, _, ⟨root, file⟩, same⟩
      cases same
      exact ⟨ordinary, ⟨tag, rfl, rfl⟩, flags, by simpa using one, root, file⟩
    · rintro ⟨ordinary, ⟨_, rfl, rfl⟩, readable⟩
      exact ⟨(), ordinary, (), readable.flags, (), by simpa using readable.oneTransition, (),
        ⟨readable.rootHash, readable.fileHash⟩, rfl⟩

/-- The leaf of a descriptor. -/
def leafOf (workchain : BitVec 32) (shardID : BitVec 64) (descriptor : Cell)
    (fields : ShardDescriptorFields) : ShardRegistryLeaf where
  block := ⟨workchain, shardID, fields.seqno, fields.rootHash, fields.fileHash⟩
  descriptor := descriptor
  fields := fields

theorem decodeShardRegistryLeaf_eq_ok :
    decodeShardRegistryLeaf tlb workchain shardID descriptor = .ok leaf ↔
      ∃ fields, parseShardDescriptorFields tlb descriptor = .ok fields ∧
        leaf = leafOf workchain shardID descriptor fields := by
  unfold decodeShardRegistryLeaf
  rw [bind_eq_ok]
  apply exists_congr
  intro fields
  apply and_congr_right
  intro _
  constructor
  · intro same
    cases same
    rfl
  · rintro rfl
    rfl

/-- A leaf is what its own descriptor decodes to. -/
def ShardRegistryLeaf.Decoded (tlb : Codec) (key : ShardRegistryKey) (leaf : ShardRegistryLeaf) :
    Prop :=
  decodeShardRegistryLeaf tlb key.workchain key.shard leaf.descriptor = .ok leaf

theorem ShardRegistryLeaf.Decoded.key {key : ShardRegistryKey} (h : leaf.Decoded tlb key) :
    shardTopKey leaf.block = key := by
  obtain ⟨fields, -, same⟩ := decodeShardRegistryLeaf_eq_ok.mp h
  rw [same]
  rfl

theorem decoded_of_decode
    (h : decodeShardRegistryLeaf tlb workchain shardID descriptor = .ok leaf) :
    leaf.Decoded tlb ⟨workchain, shardID⟩ := by
  obtain ⟨fields, parsed, rfl⟩ := decodeShardRegistryLeaf_eq_ok.mp h
  exact decodeShardRegistryLeaf_eq_ok.mpr ⟨fields, parsed, rfl⟩

/-! ## Tips -/

/-- What a decoded tip says of its predecessors. -/
structure DecodedShardTop.Sound (item : DecodedShardTop) : Prop where
  linear : item.kind = .linear → item.predecessor.map shardTopKey = [item.target]
  split : item.kind = .split → ∃ parent, item.predecessor = [parent] ∧
    parent.workchain = item.target.workchain ∧ isDirectChild parent.shard item.target.shard = true
  merge : item.kind = .merge → ∃ left right, child item.target.shard true = some left ∧
    child item.target.shard false = some right ∧
    (item.predecessor.map shardTopKey).Perm
      [⟨item.target.workchain, left⟩, ⟨item.target.workchain, right⟩]

/-- What `decodeShardTop` returns. -/
structure DecodeShardTop (tlb : Codec) (top : ShardTop) (item : DecodedShardTop) : Prop where
  decoded : decodeShardRegistryLeaf tlb top.block.workchain top.block.shard top.descriptor =
    .ok item.leaf
  block : item.leaf.block = top.block
  tagged : top.block.shard ≠ 0#64
  workchain : top.block.workchain ≠ masterchainWorkchainID ∧
    top.block.workchain ≠ invalidWorkchainID
  predecessors : ∀ p ∈ item.predecessor, p ∈ top.predecessors
  sound : item.Sound

theorem transitionKind_spec {predecessors predecessor : List BlockID} {kind : ShardTransitionKind}
    (same : ∀ p ∈ predecessors, p.workchain = leaf.block.workchain)
    (h : transitionKind leaf.block predecessors = .ok (kind, predecessor)) :
    (∀ p ∈ predecessor, p ∈ predecessors) ∧
    (⟨leaf, kind, predecessor⟩ : DecodedShardTop).Sound := by
  match predecessors, same, h with
  | [], _, h => cases h
  | [single], same, h =>
    have workchain := same single (by simp)
    simp only [transitionKind] at h
    split at h
    next shard =>
      cases h
      refine ⟨fun p mem => mem, ?_, ?_, ?_⟩
      · intro _
        simp [shardTopKey, DecodedShardTop.target, shard, workchain]
      · intro no
        cases no
      · intro no
        cases no
    · split at h
      next inside =>
        cases h
        refine ⟨fun p mem => mem, ?_, ?_, ?_⟩
        · intro no
          cases no
        · intro _
          exact ⟨single, rfl, workchain, inside⟩
        · intro no
          cases no
      · cases h
  | [first, second], same, h =>
    have w₁ := same first (by simp)
    have w₂ := same second (by simp)
    simp only [transitionKind, bind_eq_ok, childOf_eq_ok, require_eq_ok] at h
    obtain ⟨left, hl, right, hr, _, sides, result⟩ := h
    cases result
    have keys : ([first, second].map shardTopKey).Perm
        [⟨leaf.block.workchain, left⟩, ⟨leaf.block.workchain, right⟩] := by
      simp only [Bool.or_eq_true, Bool.and_eq_true, beq_iff_eq] at sides
      rcases sides with ⟨one, two⟩ | ⟨one, two⟩
      · simp [shardTopKey, one, two, w₁, w₂]
      · simp only [map_cons, map_nil, shardTopKey, one, two, w₁, w₂]
        exact List.Perm.swap _ _ _
    have swapped : (if first.shard > second.shard then [second, first] else [first, second]).Perm
        [first, second] := by
      split
      · exact List.Perm.swap _ _ _
      · exact List.Perm.refl _
    refine ⟨fun p mem => swapped.mem_iff.mp mem, ?_, ?_, ?_⟩
    · intro no
      cases no
    · intro no
      cases no
    · intro _
      exact ⟨left, right, hl, hr, (swapped.map shardTopKey).trans keys⟩
  | _ :: _ :: _ :: _, _, h => cases h

theorem decodeShardTop_spec {top : ShardTop} (h : decodeShardTop tlb top = .ok item) :
    DecodeShardTop tlb top item := by
  unfold decodeShardTop at h
  simp only [bind_eq_ok, require_eq_ok, beq_iff_eq, forM_eq_ok] at h
  obtain ⟨_, valid, leaf, decoded, _, block, _, checked, ⟨kind, predecessor⟩, kinds, result⟩ := h
  cases result
  unfold validateShardRegistryBlock at valid
  simp only [bind_eq_ok, require_eq_ok, Bool.and_eq_true, bne_iff_ne] at valid
  obtain ⟨_, workchain, _, tagged, -⟩ := valid
  rw [← block] at kinds checked
  have along : ∀ p ∈ top.predecessors, p.workchain = leaf.block.workchain := by
    intro p mem
    obtain ⟨_, -, same⟩ := bind_eq_ok.mp (checked p mem)
    simpa using same
  obtain ⟨among, sound⟩ := transitionKind_spec along kinds
  exact ⟨decoded, block, tagged, workchain, among, sound⟩

/-! ## The plan -/

/-- Where a planned transition comes from. -/
inductive Planned (decoded : List DecodedShardTop) : ShardRegistryTransition → Prop
  | alone {item : DecodedShardTop} (mem : item ∈ decoded) (kind : item.kind ≠ .split) :
      Planned decoded item.transition
  | pair {first second : DecodedShardTop} {p q : BlockID} {key : ShardRegistryKey}
      {left right : BitVec 64} (mem₁ : first ∈ decoded) (mem₂ : second ∈ decoded)
      (parent₁ : first.predecessor = [p]) (parent₂ : second.predecessor = [q])
      (key₁ : shardTopKey p = key) (key₂ : shardTopKey q = key)
      (kind₁ : first.kind = .split) (kind₂ : second.kind = .split)
      (hl : child key.shard true = some left) (hr : child key.shard false = some right)
      (side₁ : first.leaf.block.shard = left) (side₂ : second.leaf.block.shard = right) :
      Planned decoded ⟨.split, [first.leaf, second.leaf], [p, q], [key]⟩

/-- What holds of the plan while it is made. -/
structure Plan.Sound (decoded : List DecodedShardTop) (plan : Plan) : Prop where
  alone : ∀ t ∈ plan.transitions, ∃ item ∈ decoded, item.kind ≠ .split ∧ t = item.transition
  splits : ∀ {key tips}, plan.splits[key]? = some tips → ∀ tip ∈ tips,
    tip ∈ decoded ∧ tip.kind = .split ∧ ∃ p, tip.predecessor = [p] ∧ shardTopKey p = key

theorem Plan.Sound.add {plan plan' : Plan} (h : plan.Sound decoded) (mem : item ∈ decoded)
    (sound : item.Sound) (ok : plan.add item = .ok plan') : plan'.Sound decoded := by
  obtain ⟨_, -, ok⟩ := bind_eq_ok.mp ok
  cases kind : item.kind with
  | split =>
    obtain ⟨p, single, -, -⟩ := sound.split kind
    simp only [kind, single] at ok
    cases ok
    refine ⟨h.alone, ?_⟩
    intro key tips found tip inTips
    simp only [Std.ExtTreeMap.getElem?_insert, Std.LawfulEqCmp.compare_eq_iff_eq] at found
    split at found
    next same =>
      cases found
      rcases mem_append.mp inTips with old | new
      · cases before : plan.splits[shardTopKey p]? with
        | none => simp [Std.ExtTreeMap.getD_eq_getD_getElem?, before] at old
        | some earlier =>
          simp only [Std.ExtTreeMap.getD_eq_getD_getElem?, before, Option.getD_some] at old
          rw [← same]
          exact h.splits before tip old
      · rw [mem_singleton] at new
        subst new
        exact ⟨mem, kind, p, single, same⟩
    · exact h.splits found tip inTips
  | linear | merge =>
    simp only [kind] at ok
    cases ok
    refine ⟨?_, h.splits⟩
    intro t inList
    rcases mem_append.mp inList with old | new
    · exact h.alone t old
    · rw [mem_singleton] at new
      exact ⟨item, mem, by simp [kind], new⟩

theorem pairSplit_planned {split : ShardRegistryKey × List DecodedShardTop}
    (tips : ∀ tip ∈ split.2, tip ∈ decoded ∧ tip.kind = .split ∧ ∃ p, tip.predecessor = [p] ∧
      shardTopKey p = split.1) (h : pairSplit split = .ok t) : Planned decoded t := by
  obtain ⟨key, pair⟩ := split
  match pair, tips, h with
  | [], _, h => cases h
  | [_], _, h => cases h
  | [first, second], tips, h =>
    obtain ⟨mem₁, kind₁, p, single₁, key₁⟩ := tips first (by simp)
    obtain ⟨mem₂, kind₂, q, single₂, key₂⟩ := tips second (by simp)
    simp only [pairSplit, bind_eq_ok, childOf_eq_ok, require_eq_ok, Bool.and_eq_true,
      beq_iff_eq] at h
    obtain ⟨left, hl, right, hr, _, ⟨side₁, side₂⟩, result⟩ := h
    simp only [single₁, single₂] at result
    cases result
    exact .pair mem₁ mem₂ single₁ single₂ key₁ key₂ kind₁ kind₂ hl hr side₁ side₂
  | _ :: _ :: _ :: _, _, h => cases h

theorem consumeOnce_nodup {consumed result : List ShardRegistryKey}
    (h : keys.foldlM consumeOnce consumed = .ok result) :
    keys.Nodup ∧ ∀ key ∈ keys, key ∉ consumed := by
  induction keys generalizing consumed with
  | nil => simp
  | cons key keys ih =>
    rw [foldlM_cons, bind_eq_ok] at h
    obtain ⟨next, step, rest⟩ := h
    unfold consumeOnce at step
    obtain ⟨_, fresh, same⟩ := bind_eq_ok.mp step
    cases same
    obtain ⟨nodup, apart⟩ := ih rest
    have new : key ∉ consumed := by simpa using fresh
    refine ⟨nodup_cons.mpr ⟨?_, nodup⟩, ?_⟩
    · intro again
      exact apart key again mem_cons_self
    · intro other mem
      rcases mem_cons.mp mem with rfl | later
      · exact new
      · intro old
        exact apart other later (mem_cons_of_mem _ old)

/-- Every transition comes from the tips, and no predecessor is consumed twice. -/
theorem planShardRegistryTransitions_spec (sound : ∀ item ∈ decoded, item.Sound)
    (h : planShardRegistryTransitions decoded = .ok transitions) :
    (∀ t ∈ transitions, Planned decoded t) ∧ (transitions.flatMap (·.consumes)).Nodup := by
  unfold planShardRegistryTransitions at h
  simp only [bind_eq_ok] at h
  obtain ⟨plan, planned, pairs, paired, consumed, once, result⟩ := h
  cases result
  have made : plan.Sound decoded := by
    apply foldlM_keeps _ _ planned
    · intro a item a' mem before step
      have inside : item ∈ decoded := (mem_insertionSort _).mp mem
      exact before.add inside (sound item inside) step
    · exact ⟨by simp, by simp⟩
  refine ⟨?_, (consumeOnce_nodup once).1⟩
  intro t mem
  rcases mem_append.mp ((mem_insertionSort _).mp mem) with single | pair
  · obtain ⟨item, inside, kind, rfl⟩ := made.alone t single
    exact .alone inside kind
  · obtain ⟨split, inside, ok⟩ := exists_of_mem_mapM paired pair
    apply pairSplit_planned _ ok
    exact made.splits (Std.ExtTreeMap.mem_toList_iff_getElem?_eq_some.mp inside)

/-! ## Verified transitions -/

section Verified

variable {current : LeafMap} {ltLimit : UInt64} {predecessor : ShardDescriptorFields}
  {seqno : UInt32} {t' : ShardRegistryTransition}

theorem registered_eq {key : ShardRegistryKey} (h : current[key]? = some leaf) :
    registered current key = leaf.fields := by
  unfold registered
  rw [h]
  rfl

theorem verifyClaim_eq_ok {claim : BlockID} :
    verifyClaim current claim = .ok u ↔
      ∃ leaf, current[shardTopKey claim]? = some leaf ∧ leaf.block = claim := by
  unfold verifyClaim
  cases current[shardTopKey claim]? <;> simp

/-- The checks made of every output. -/
structure OutputChecked (ltLimit : UInt64) (catchainSeqno : UInt32) (output : ShardRegistryLeaf) :
    Prop where
  nextValidatorShard : output.fields.nextValidatorShard = output.block.shard
  catchainSeqno : output.fields.nextCatchainSeqno = catchainSeqno
  endLT : output.fields.endLT < ltLimit

theorem verifyOutput_eq_ok {catchainSeqno : UInt32}
    (h : verifyOutput ltLimit catchainSeqno output = .ok u) :
    OutputChecked ltLimit catchainSeqno output := by
  unfold verifyOutput at h
  simp only [bind_eq_ok, require_eq_ok, beq_iff_eq, decide_eq_true_eq] at h
  obtain ⟨_, shard, _, seqno, lt⟩ := h
  exact ⟨shard, seqno, lt⟩

/-- The announcement a marked output was made under. -/
def SplitAnnounced (predecessor output : ShardDescriptorFields) : Prop :=
  ∃ utime interval, predecessor.splitMerge = .split utime interval ∧
    masterShardTimeInside output.genUtime utime interval = true

theorem verifyShardBeforeSplit_linear (h : verifyShardBeforeSplit predecessor output false = .ok u)
    (marked : output.fields.beforeSplit = true) : SplitAnnounced predecessor output.fields := by
  unfold verifyShardBeforeSplit at h
  simp only [marked, Bool.not_true, Bool.false_eq_true, if_false] at h
  split at h
  next utime interval announced =>
    exact ⟨utime, interval, announced, by simpa using h⟩
  · cases h

/-- The announcement a merge was made under. -/
def MergeAnnounced (predecessor output : ShardDescriptorFields) : Prop :=
  ∃ utime interval, predecessor.splitMerge = .merge utime interval ∧
    masterShardTimeInside output.genUtime utime interval = true

theorem verifyShardMergeWindow_eq_ok {key : ShardRegistryKey} {output : ShardDescriptorFields}
    (h : verifyShardMergeWindow key predecessor output = .ok u) :
    MergeAnnounced predecessor output := by
  unfold verifyShardMergeWindow at h
  split at h
  next utime interval announced =>
    exact ⟨utime, interval, announced, by simpa using h⟩
  · cases h

/-- What a verified transition is: its tips, the registered leaves it replaces and what was
checked of both. -/
inductive Transits (tlb : Codec) (current : LeafMap) (ltLimit : UInt64)
    (decoded : List DecodedShardTop) : ShardRegistryTransition → Prop
  | linear {item : DecodedShardTop} {leaf output : ShardRegistryLeaf}
      (mem : item ∈ decoded) (kind : item.kind = .linear)
      (claims : item.predecessor = [leaf.block])
      (found : current[item.target]? = some leaf)
      (checked : OutputChecked ltLimit leaf.fields.nextCatchainSeqno item.leaf)
      (steady : leaf.fields.beforeSplit = false ∧ leaf.fields.beforeMerge = false)
      (announced : item.leaf.fields.beforeSplit = true →
        SplitAnnounced leaf.fields item.leaf.fields)
      (inherits : inheritShardRegistryFSM tlb item.leaf leaf.fields = .ok output) :
      Transits tlb current ltLimit decoded ⟨.linear, [output], [leaf.block], [item.target]⟩
  | split {first second : DecodedShardTop} {leaf : ShardRegistryLeaf} {key : ShardRegistryKey}
      {left right : BitVec 64} (mem₁ : first ∈ decoded) (mem₂ : second ∈ decoded)
      (kind₁ : first.kind = .split) (kind₂ : second.kind = .split)
      (claims : first.predecessor = [leaf.block] ∧ second.predecessor = [leaf.block])
      (found : current[key]? = some leaf)
      (hl : child key.shard true = some left) (hr : child key.shard false = some right)
      (side₁ : first.leaf.block.shard = left) (side₂ : second.leaf.block.shard = right)
      (checked₁ : OutputChecked ltLimit leaf.fields.nextCatchainSeqno first.leaf)
      (checked₂ : OutputChecked ltLimit leaf.fields.nextCatchainSeqno second.leaf)
      (marked : leaf.fields.beforeSplit = true ∧ leaf.fields.beforeMerge = false)
      (unmarked : first.leaf.fields.beforeSplit = false ∧ second.leaf.fields.beforeSplit = false) :
      Transits tlb current ltLimit decoded
        ⟨.split, [first.leaf, second.leaf], [leaf.block, leaf.block], [key]⟩
  | merge {item : DecodedShardTop} {seqno : UInt32} (mem : item ∈ decoded)
      (kind : item.kind = .merge)
      (found : ∀ claim ∈ item.predecessor, ∃ leaf, current[shardTopKey claim]? = some leaf ∧
        leaf.block = claim ∧ leaf.fields.beforeMerge = true ∧ leaf.fields.beforeSplit = false ∧
        leaf.fields.nextCatchainSeqno ≤ seqno ∧ MergeAnnounced leaf.fields item.leaf.fields)
      (checked : OutputChecked ltLimit (seqno + 1) item.leaf)
      (unmarked : item.leaf.fields.beforeSplit = false) :
      Transits tlb current ltLimit decoded item.transition

theorem max_word (x y : UInt32) : max x y = if x ≤ y then y else x := rfl

theorem le_foldl_max {seqnos : List UInt32} {start : UInt32} :
    start ≤ seqnos.foldl max start ∧ ∀ x ∈ seqnos, x ≤ seqnos.foldl max start := by
  induction seqnos generalizing start with
  | nil => simp
  | cons x xs ih =>
    obtain ⟨le, all⟩ : max start x ≤ xs.foldl max (max start x) ∧
      ∀ y ∈ xs, y ≤ xs.foldl max (max start x) := ih
    have bounds : start ≤ max start x ∧ x ≤ max start x := by
      rw [max_word]
      split <;> grind
    refine ⟨UInt32.le_trans bounds.1 le, ?_⟩
    intro y mem
    rcases mem_cons.mp mem with rfl | later
    · exact UInt32.le_trans bounds.2 le
    · exact all y later

theorem expectedCatchainSeqno_single {key : ShardRegistryKey}
    (kind : t.kind ≠ .merge) (one : t.consumes = [key]) (found : current[key]? = some leaf)
    (h : expectedCatchainSeqno current t = .ok seqno) : seqno = leaf.fields.nextCatchainSeqno := by
  unfold expectedCatchainSeqno at h
  simp only [if_neg kind, one, map_cons, map_nil, foldl_cons, foldl_nil,
    registered_eq found, max_word] at h
  cases h
  grind

theorem expectedCatchainSeqno_merge (kind : t.kind = .merge)
    (h : expectedCatchainSeqno current t = .ok seqno) :
    ∃ old, seqno = old + 1 ∧
      ∀ key ∈ t.consumes, (registered current key).nextCatchainSeqno ≤ old := by
  unfold expectedCatchainSeqno at h
  simp only [if_pos kind] at h
  split at h
  · cases h
  · cases h
    refine ⟨_, rfl, ?_⟩
    intro key mem
    exact le_foldl_max.2 _ (mem_map_of_mem mem)

theorem transits_linear (mem : item ∈ decoded) (sound : item.Sound) (kind : item.kind = .linear)
    (h : verifyShardRegistryTransition tlb current ltLimit item.transition = .ok t) :
    Transits tlb current ltLimit decoded t := by
  have keys := sound.linear kind
  obtain ⟨p, single, key⟩ : ∃ p, item.predecessor = [p] ∧ shardTopKey p = item.target := by
    match preds : item.predecessor with
    | [] => simp [preds] at keys
    | [p] => exact ⟨p, rfl, by simpa [preds] using keys⟩
    | _ :: _ :: _ => simp [preds] at keys
  unfold verifyShardRegistryTransition at h
  simp only [bind_eq_ok, forM_eq_ok, DecodedShardTop.transition, single, kind, map_cons,
    map_nil, key] at h
  obtain ⟨_, claimed, seqno, expected, _, outputs, result, verified, same⟩ := h
  cases same
  obtain ⟨leaf, found, block⟩ := verifyClaim_eq_ok.mp (claimed p (by simp))
  rw [key] at found
  have base := expectedCatchainSeqno_single (by simp) rfl found expected
  have checked := verifyOutput_eq_ok (outputs item.leaf (by simp))
  simp only [verifyKind, verifyLinear, bind_eq_ok, require_eq_ok, registered_eq found,
    Bool.not_eq_true', Bool.or_eq_false_iff] at verified
  obtain ⟨output, ⟨_, steady, _, marked, inherits⟩, same⟩ := verified
  cases same
  rw [base] at checked
  subst block
  exact .linear mem kind single found checked steady (verifyShardBeforeSplit_linear marked) inherits

theorem transits_merge (mem : item ∈ decoded) (kind : item.kind = .merge)
    (h : verifyShardRegistryTransition tlb current ltLimit item.transition = .ok t) :
    Transits tlb current ltLimit decoded t := by
  unfold verifyShardRegistryTransition at h
  simp only [bind_eq_ok, forM_eq_ok] at h
  obtain ⟨_, claimed, seqno, expected, _, outputs, result, verified, same⟩ := h
  obtain ⟨old, rfl, bound⟩ := expectedCatchainSeqno_merge kind expected
  have checked := verifyOutput_eq_ok (outputs item.leaf (by simp [DecodedShardTop.transition]))
  simp only [verifyKind, DecodedShardTop.transition, kind, bind_eq_ok, require_eq_ok, forM_eq_ok,
    Bool.not_eq_true'] at verified
  obtain ⟨_, preds, _, unmarked, outs⟩ := verified
  cases outs
  have unchanged : t = item.transition := by
    cases same
    rfl
  rw [unchanged]
  refine .merge mem kind ?_ checked unmarked
  intro claim inside
  obtain ⟨leaf, found, block⟩ := verifyClaim_eq_ok.mp (claimed claim inside)
  have key := mem_map_of_mem (f := shardTopKey) inside
  have pred := preds _ key
  have seqnos := bound _ key
  unfold verifyMergePredecessor at pred
  simp only [bind_eq_ok, require_eq_ok, registered_eq found, Bool.not_eq_true'] at pred seqnos
  obtain ⟨_, before, _, steady, window⟩ := pred
  exact ⟨leaf, found, block, before, steady, seqnos, verifyShardMergeWindow_eq_ok window⟩

theorem transits_split {planned : ShardRegistryTransition} (source : Planned decoded planned)
    (split : planned.kind = .split)
    (h : verifyShardRegistryTransition tlb current ltLimit planned = .ok t) :
    Transits tlb current ltLimit decoded t := by
  obtain ⟨mem, kind⟩ | @⟨first, second, p, q, key, left, right, mem₁, mem₂, parent₁, parent₂, key₁,
    key₂, kind₁, kind₂, hl, hr, side₁, side₂⟩ := source
  · exact absurd split kind
  unfold verifyShardRegistryTransition at h
  simp only [bind_eq_ok, forM_eq_ok] at h
  obtain ⟨_, claimed, seqno, expected, _, outputs, result, verified, same⟩ := h
  cases same
  obtain ⟨leaf, found, block⟩ := verifyClaim_eq_ok.mp (claimed p (by simp))
  obtain ⟨leaf', found', block'⟩ := verifyClaim_eq_ok.mp (claimed q (by simp))
  rw [key₁] at found
  rw [key₂, found, Option.some.injEq] at found'
  subst found' block block'
  have base := expectedCatchainSeqno_single (by simp) rfl found expected
  have checked₁ := verifyOutput_eq_ok (outputs first.leaf (by simp))
  have checked₂ := verifyOutput_eq_ok (outputs second.leaf (by simp))
  simp only [verifyKind, bind_eq_ok, require_eq_ok, forM_eq_ok, registered_eq found,
    Bool.not_eq_true'] at verified
  obtain ⟨_, marked, _, steady, _, each, outs⟩ := verified
  cases outs
  rw [base] at checked₁ checked₂
  have unmarked (output : ShardRegistryLeaf) (h : verifySplitOutput current key output = .ok ()) :
      output.fields.beforeSplit = false := by
    obtain ⟨_, h, -⟩ := bind_eq_ok.mp h
    simpa using h
  exact .split mem₁ mem₂ kind₁ kind₂ ⟨parent₁, parent₂⟩ found hl hr side₁ side₂ checked₁ checked₂
    ⟨marked, steady⟩ ⟨unmarked _ (each _ (by simp)), unmarked _ (each _ (by simp))⟩

theorem verifyShardRegistryTransition_spec
    (sound : ∀ item ∈ decoded, item.Sound) (planned : Planned decoded t)
    (h : verifyShardRegistryTransition tlb current ltLimit t = .ok t') :
    Transits tlb current ltLimit decoded t' := by
  by_cases split : t.kind = .split
  · exact transits_split planned split h
  · cases planned with
    | @alone item mem _ =>
      cases which : item.kind with
      | linear => exact transits_linear mem (sound item mem) which h
      | split => exact absurd which split
      | merge => exact transits_merge mem which h
    | pair => exact absurd rfl split

theorem verifyShardRegistryTransition_consumes
    (h : verifyShardRegistryTransition tlb current ltLimit t = .ok t') :
    t'.consumes = t.consumes := by
  unfold verifyShardRegistryTransition at h
  simp only [bind_eq_ok] at h
  obtain ⟨_, -, _, -, _, -, _, -, same⟩ := h
  cases same
  rfl

end Verified

/-! ## Staging -/

section Staging

variable {leaves leaves' accepted accepted' : LeafMap}

theorem getElem?_foldl_erase (k : ShardRegistryKey) :
    (keys.foldl (fun leaves key => leaves.erase key) leaves)[k]? =
      if k ∈ keys then none else leaves[k]? := by
  induction keys generalizing leaves with
  | nil => simp
  | cons key keys ih =>
    rw [foldl_cons, ih, Std.ExtTreeMap.getElem?_erase]
    simp only [Std.LawfulEqCmp.compare_eq_iff_eq, mem_cons, @eq_comm _ key k]
    by_cases later : k ∈ keys <;> simp [later]

/-- What staging some outputs does to the leaves. -/
structure Staged (outputs : List ShardRegistryLeaf) (leaves leaves' : LeafMap) : Prop where
  sound : ∀ {k : ShardRegistryKey} {o : ShardRegistryLeaf}, leaves'[k]? = some o →
    (o ∈ outputs ∧ shardTopKey o.block = k) ∨ leaves[k]? = some o
  keeps : ∀ {k : ShardRegistryKey} {l : ShardRegistryLeaf}, leaves[k]? = some l →
    leaves'[k]? = some l
  enters : ∀ o ∈ outputs, leaves'[shardTopKey o.block]? = some o

theorem stageOutput_eq_ok (h : stageOutput (leaves, accepted) output = .ok (leaves', accepted')) :
    leaves[shardTopKey output.block]? = none ∧
      leaves' = leaves.insert (shardTopKey output.block) output ∧
      accepted' = accepted.insert (shardTopKey output.block) output := by
  obtain ⟨_, fresh, same⟩ := bind_eq_ok.mp h
  cases same
  refine ⟨?_, rfl, rfl⟩
  rw [require_eq_ok, Bool.not_eq_true'] at fresh
  exact Std.ExtTreeMap.getElem?_eq_none_of_contains_eq_false fresh

theorem stageOutputs_spec {outputs : List ShardRegistryLeaf}
    (h : outputs.foldlM stageOutput (leaves, accepted) = .ok (leaves', accepted')) :
    Staged outputs leaves leaves' := by
  induction outputs generalizing leaves accepted with
  | nil =>
    cases h
    exact ⟨fun h => .inr h, fun h => h, by simp⟩
  | cons output outputs ih =>
    rw [foldlM_cons, bind_eq_ok] at h
    obtain ⟨⟨middle, entered⟩, first, rest⟩ := h
    obtain ⟨fresh, rfl, rfl⟩ := stageOutput_eq_ok first
    have tail := ih rest
    refine ⟨?_, ?_, ?_⟩
    · intro k o found
      rcases tail.sound found with ⟨mem, key⟩ | before
      · exact .inl ⟨mem_cons_of_mem _ mem, key⟩
      · simp only [Std.ExtTreeMap.getElem?_insert, Std.LawfulEqCmp.compare_eq_iff_eq] at before
        split at before
        next same =>
          cases before
          exact .inl ⟨mem_cons_self, same⟩
        · exact .inr before
    · intro k l found
      apply tail.keeps
      simp only [Std.ExtTreeMap.getElem?_insert, Std.LawfulEqCmp.compare_eq_iff_eq]
      split
      next same =>
        rw [← same, fresh] at found
        cases found
      · exact found
    · intro o mem
      rcases mem_cons.mp mem with rfl | later
      · apply tail.keeps
        simp
      · exact tail.enters o later

theorem stageTransition_spec (h : stageTransition (leaves, accepted) t = .ok (leaves', accepted')) :
    (∀ {k : ShardRegistryKey} {o : ShardRegistryLeaf}, leaves'[k]? = some o →
      (o ∈ t.outputs ∧ shardTopKey o.block = k) ∨ (leaves[k]? = some o ∧ k ∉ t.consumes)) ∧
    (∀ {k : ShardRegistryKey} {l : ShardRegistryLeaf}, leaves[k]? = some l → k ∉ t.consumes →
      leaves'[k]? = some l) ∧
    ∀ o ∈ t.outputs, leaves'[shardTopKey o.block]? = some o := by
  have staged := stageOutputs_spec h
  refine ⟨?_, ?_, staged.enters⟩
  · intro k o found
    rcases staged.sound found with output | before
    · exact .inl output
    · rw [getElem?_foldl_erase] at before
      split at before
      · cases before
      next kept =>
        exact .inr ⟨before, kept⟩
  · intro k l found kept
    apply staged.keeps
    rw [getElem?_foldl_erase, if_neg kept]
    exact found

/-- All transitions: a leaf of the result is an output or was there and not consumed. -/
theorem staged_sound {k : ShardRegistryKey} {o : ShardRegistryLeaf}
    (h : transitions.foldlM stageTransition (leaves, accepted) = .ok (leaves', accepted'))
    (found : leaves'[k]? = some o) :
    (∃ t ∈ transitions, o ∈ t.outputs ∧ shardTopKey o.block = k) ∨
      (leaves[k]? = some o ∧ ∀ t ∈ transitions, k ∉ t.consumes) := by
  induction transitions generalizing leaves accepted with
  | nil =>
    cases h
    exact .inr ⟨found, by simp⟩
  | cons t transitions ih =>
    rw [foldlM_cons, bind_eq_ok] at h
    obtain ⟨⟨middle, entered⟩, first, rest⟩ := h
    rcases ih rest with ⟨t', mem, output⟩ | ⟨before, kept⟩
    · exact .inl ⟨t', mem_cons_of_mem _ mem, output⟩
    · rcases (stageTransition_spec first).1 before with output | ⟨old, unconsumed⟩
      · exact .inl ⟨t, mem_cons_self, output⟩
      · refine .inr ⟨old, ?_⟩
        intro t' mem
        rcases mem_cons.mp mem with rfl | later
        · exact unconsumed
        · exact kept t' later

theorem staged_keeps {k : ShardRegistryKey} {l : ShardRegistryLeaf}
    (h : transitions.foldlM stageTransition (leaves, accepted) = .ok (leaves', accepted'))
    (found : leaves[k]? = some l) (kept : ∀ t ∈ transitions, k ∉ t.consumes) :
    leaves'[k]? = some l := by
  induction transitions generalizing leaves accepted with
  | nil =>
    cases h
    exact found
  | cons t transitions ih =>
    rw [foldlM_cons, bind_eq_ok] at h
    obtain ⟨⟨middle, entered⟩, first, rest⟩ := h
    exact ih rest ((stageTransition_spec first).2.1 found (kept t mem_cons_self))
      fun t' mem => kept t' (mem_cons_of_mem _ mem)

theorem staged_enters
    (h : transitions.foldlM stageTransition (leaves, accepted) = .ok (leaves', accepted'))
    (once : (transitions.flatMap (·.consumes)).Nodup) : ∀ t ∈ transitions, ∀ o ∈ t.outputs,
      shardTopKey o.block ∈ t.consumes → leaves'[shardTopKey o.block]? = some o := by
  induction transitions generalizing leaves accepted with
  | nil => simp
  | cons t transitions ih =>
    intro t' mem o output own
    rw [foldlM_cons, bind_eq_ok] at h
    obtain ⟨⟨middle, entered⟩, first, rest⟩ := h
    rw [flatMap_cons, nodup_append] at once
    rcases mem_cons.mp mem with rfl | later
    · apply staged_keeps rest ((stageTransition_spec first).2.2 o output)
      intro t' mem' again
      exact once.2.2 _ own _ (mem_flatMap.mpr ⟨t', mem', again⟩) rfl
    · exact ih rest once.2.1 t' later o output own

end Staging

/-! ## The whole batch -/

/-- How a batch was applied. -/
structure Applied (tlb : Codec) (r r' : ShardRegistry) (tops : List ShardTop) (ltLimit : UInt64)
    (decoded : List DecodedShardTop) (transitions : List ShardRegistryTransition) : Prop where
  tops : ∀ item ∈ decoded, ∃ top ∈ tops, DecodeShardTop tlb top item
  transits : ∀ t ∈ transitions, Transits tlb r.leaves ltLimit decoded t
  once : (transitions.flatMap (·.consumes)).Nodup
  staged : transitions.foldlM stageTransition (r.leaves, ∅) = .ok (r'.leaves, r'.accepted)
  built : ∃ shardHashes, buildShardHashesDictionary r'.leaves = .ok shardHashes

theorem ShardRegistry.apply_spec {r r' : ShardRegistry} {tops : List ShardTop} {ltLimit : UInt64}
    (h : r.apply tlb tops ltLimit = .ok r') :
    ∃ decoded transitions, Applied tlb r r' tops ltLimit decoded transitions := by
  unfold ShardRegistry.apply at h
  simp only [bind_eq_ok] at h
  obtain ⟨decoded, decoding, planned, planning, transitions, verifying, ⟨staged, accepted⟩, staging,
    shardHashes, built, _, -, result⟩ := h
  cases result
  have tips : ∀ item ∈ decoded, ∃ top ∈ tops, DecodeShardTop tlb top item := by
    intro item mem
    obtain ⟨top, inside, ok⟩ := exists_of_mem_mapM decoding mem
    exact ⟨top, inside, decodeShardTop_spec ok⟩
  have sound : ∀ item ∈ decoded, item.Sound := by
    intro item mem
    obtain ⟨top, -, spec⟩ := tips item mem
    exact spec.sound
  obtain ⟨fromPlan, once⟩ := planShardRegistryTransitions_spec sound planning
  have same : transitions.flatMap (·.consumes) = planned.flatMap (·.consumes) := by
    have each := mapM_eq_ok.mp verifying
    clear verifying staging fromPlan once planning
    induction each with
    | nil => rfl
    | cons head _ ih =>
      rw [flatMap_cons, flatMap_cons, ih, verifyShardRegistryTransition_consumes head]
  refine ⟨decoded, transitions, tips, ?_, by rwa [same], staging, shardHashes, built⟩
  intro t mem
  obtain ⟨before, inside, ok⟩ := exists_of_mem_mapM verifying mem
  exact verifyShardRegistryTransition_spec sound (fromPlan before inside) ok

end Gton.Collator
