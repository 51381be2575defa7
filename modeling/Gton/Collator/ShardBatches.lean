import Gton.Collator.ShardStaging

/-!
# Batches of tips

A batch is applied as a whole or not at all, in whatever order its tips come, and one group of its
tips at a time with the same result.
-/

namespace Gton.Collator

open Gton.Shard
open Gton.Lib.Tiling
open Gton.Lib.Fallible
open List

/-! ## What the checks read -/

section Checks

variable {tlb : Codec} {current current' : LeafMap} {ltLimit : UInt64}
  {t t' : ShardRegistryTransition}

theorem verifyKind_blocks {outputs : List ShardRegistryLeaf}
    (h : verifyKind tlb current t = .ok outputs) :
    outputs.map (·.block) = t.outputs.map (·.block) := by
  unfold verifyKind at h
  split at h
  next output rest _ _ same =>
    obtain ⟨output', verified, same'⟩ := bind_eq_ok.mp h
    cases same'
    unfold verifyLinear at verified
    simp only [bind_eq_ok] at verified
    obtain ⟨_, -, _, -, inherits⟩ := verified
    rw [same, map_cons, map_cons, inherit_block inherits]
  · simp only [bind_eq_ok] at h
    obtain ⟨_, -, _, -, _, -, same⟩ := h
    cases same
    rfl
  next same =>
    simp only [bind_eq_ok] at h
    obtain ⟨_, -, _, -, same'⟩ := h
    cases same'
    rw [same]
  · cases h
    rfl

theorem verify_keys (h : verifyShardRegistryTransition tlb current ltLimit t = .ok t') :
    t'.consumes = t.consumes ∧ t'.outputKeys = t.outputKeys := by
  refine ⟨verifyShardRegistryTransition_consumes h, ?_⟩
  unfold verifyShardRegistryTransition at h
  simp only [bind_eq_ok] at h
  obtain ⟨_, -, _, -, _, -, outputs, kinds, same⟩ := h
  cases same
  have blocks := congrArg (List.map shardTopKey) (verifyKind_blocks kinds)
  rw [map_map, map_map] at blocks
  exact blocks

theorem verify_exchanges (h : verifyShardRegistryTransition tlb current ltLimit t = .ok t')
    (ex : Exchanges t) : Exchanges t' := by
  obtain ⟨consumes, outputs⟩ := verify_keys h
  obtain ⟨part, consumed, produced⟩ := ex
  refine ⟨part, by rwa [consumes], ?_⟩
  change Tiles _ _ t'.outputKeys
  rw [outputs]
  exact produced

/-- The predecessors a transition names are those it consumes. -/
structure Claims (t : ShardRegistryTransition) : Prop where
  consumed : ∀ c ∈ t.claims, shardTopKey c ∈ t.consumes
  claimed : ∀ k ∈ t.consumes, ∃ c ∈ t.claims, shardTopKey c = k

theorem GroupOf.claims {items : List DecodedShardTop} (h : GroupOf items t)
    (sound : ∀ item ∈ items, item.Sound) : Claims t := by
  cases h with
  | @alone item =>
    refine ⟨fun c mem => mem_map_of_mem mem, ?_⟩
    intro k mem
    exact mem_map.mp mem
  | @pair first second key _ parent₁ parent₂ paired =>
    obtain ⟨-, -, -, -, rfl⟩ := GroupOf.pairSplit_eq_ok paired
    obtain ⟨-, p, single₁, rfl⟩ := (sound first (by simp)).parentKey_eq_some parent₁
    obtain ⟨-, q, single₂, same⟩ := (sound second (by simp)).parentKey_eq_some parent₂
    constructor <;> simp [single₁, single₂, same]

theorem verify_there (claims : Claims t)
    (h : verifyShardRegistryTransition tlb current ltLimit t = .ok t') :
    ∀ k ∈ t'.consumes, k ∈ current := by
  rw [(verify_keys h).1]
  intro k mem
  obtain ⟨c, inside, rfl⟩ := claims.claimed k mem
  unfold verifyShardRegistryTransition at h
  simp only [bind_eq_ok, forM_eq_ok] at h
  obtain ⟨_, claimed, -⟩ := h
  obtain ⟨leaf, found, -⟩ := verifyClaim_eq_ok.mp (claimed c inside)
  exact mem_leaves_iff.mpr ⟨leaf, found⟩

theorem verifyKind_congr (same : ∀ k ∈ t.consumes, current[k]? = current'[k]?) :
    verifyKind tlb current t = verifyKind tlb current' t := by
  have fields (k : ShardRegistryKey) (mem : k ∈ t.consumes) :
      registered current k = registered current' k := by
    unfold registered
    rw [same k mem]
  unfold verifyKind
  split
  next key rest output others _ consumes _ =>
    simp only [verifyLinear, fields key (by simp [consumes])]
  next key rest _ consumes =>
    have here := fields key (by simp [consumes])
    have outputs : verifySplitOutput current key = verifySplitOutput current' key := by
      funext output
      simp only [verifySplitOutput, here]
    rw [here, outputs]
  · congr 1
    apply forM_congr
    intro k mem
    simp only [verifyMergePredecessor, fields k mem]
  · rfl

theorem verify_congr (claims : Claims t)
    (same : ∀ k ∈ t.consumes, current[k]? = current'[k]?) :
    verifyShardRegistryTransition tlb current ltLimit t =
      verifyShardRegistryTransition tlb current' ltLimit t := by
  have claimed : t.claims.forM (verifyClaim current) = t.claims.forM (verifyClaim current') := by
    apply forM_congr
    intro c mem
    unfold verifyClaim
    rw [same _ (claims.consumed c mem)]
  have seqno : expectedCatchainSeqno current t = expectedCatchainSeqno current' t := by
    have seqnos : t.consumes.map (fun key => (registered current key).nextCatchainSeqno) =
        t.consumes.map fun key => (registered current' key).nextCatchainSeqno := by
      apply map_congr_left
      intro k mem
      unfold registered
      rw [same k mem]
    unfold expectedCatchainSeqno
    rw [seqnos]
  unfold verifyShardRegistryTransition
  rw [claimed, seqno, verifyKind_congr same]

end Checks

/-! ## Applying a batch -/

variable {t : ShardRegistryTransition} {leaves leaves' : LeafMap}

section Apply

variable {tlb : Codec} {ltLimit : UInt64} {workchains : Set (BitVec 32)} {r r' : ShardRegistry}
  {tops : List ShardTop} {items : List DecodedShardTop}
  {planned transitions : List ShardRegistryTransition}

/-- The stages of a batch up to its checked transitions. -/
structure Checked (tlb : Codec) (leaves : LeafMap) (ltLimit : UInt64) (tops : List ShardTop)
    (items : List DecodedShardTop) (planned transitions : List ShardRegistryTransition) :
    Prop where
  decoding : tops.mapM (decodeShardTop tlb) = .ok items
  planning : planShardRegistryTransitions items = .ok planned
  verifying : planned.mapM (verifyShardRegistryTransition tlb leaves ltLimit) = .ok transitions

theorem apply_eq_ok : r.apply tlb tops ltLimit = .ok r' ↔
    ∃ items planned transitions, Checked tlb r.leaves ltLimit tops items planned transitions ∧
      transitions.foldlM stageTransition (r.leaves, ∅) = .ok (r'.leaves, r'.accepted) ∧
      (∃ shardHashes, buildShardHashesDictionary r'.leaves = .ok shardHashes) ∧
      buildShardFeesDictionary tlb r'.accepted = .ok () := by
  unfold ShardRegistry.apply
  simp only [bind_eq_ok]
  constructor
  · rintro ⟨items, decoding, planned, planning, transitions, verifying, ⟨leaves, accepted⟩, staging,
      shardHashes, built, _, fees, same⟩
    cases same
    exact ⟨items, planned, transitions, ⟨decoding, planning, verifying⟩, staging,
      ⟨shardHashes, built⟩, fees⟩
  · rintro ⟨items, planned, transitions, checked, staging, ⟨shardHashes, built⟩, fees⟩
    exact ⟨items, checked.decoding, planned, checked.planning, transitions, checked.verifying, _,
      staging, shardHashes, built, (), fees, rfl⟩

theorem decoded_sound (decoding : tops.mapM (decodeShardTop tlb) = .ok items) :
    ∀ item ∈ items, item.Sound ∧ item.Tagged := by
  intro item mem
  obtain ⟨top, -, ok⟩ := exists_of_mem_mapM decoding mem
  have spec := decodeShardTop_spec ok
  refine ⟨spec.sound, ?_⟩
  unfold DecodedShardTop.Tagged DecodedShardTop.target
  rw [spec.block]
  exact spec.tagged

namespace Checked

variable {leaves : LeafMap}

theorem mem_planned (h : Checked tlb leaves ltLimit tops items planned transitions)
    (mem : t ∈ planned) : Exchanges t ∧ Claims t := by
  obtain ⟨groups, grouping, -, rfl⟩ := plan_grouping h.planning
  obtain ⟨g, hg, rfl⟩ := mem_map.mp (mem_sortByKey.mp mem)
  have sound (item) (inside : item ∈ g.1) :=
    decoded_sound h.decoding item (grouping.mem_of_group hg inside)
  have group := grouping.group g hg
  exact ⟨group.exchanges (fun item inside => (sound item inside).1) fun item inside =>
    (sound item inside).2, group.claims fun item inside => (sound item inside).1⟩

theorem transits (h : Checked tlb leaves ltLimit tops items planned transitions)
    (mem : t ∈ transitions) : Transits tlb leaves ltLimit items t := by
  have sound (item) (inside : item ∈ items) := (decoded_sound h.decoding item inside).1
  obtain ⟨t₀, inPlan, verified⟩ := exists_of_mem_mapM h.verifying mem
  exact verifyShardRegistryTransition_spec sound
    ((planShardRegistryTransitions_spec sound h.planning).1 t₀ inPlan) verified

theorem stageable (h : Checked tlb leaves ltLimit tops items planned transitions) :
    Stageable leaves transitions where
  exchanges t mem := by
    obtain ⟨t₀, inPlan, ok⟩ := exists_of_mem_mapM h.verifying mem
    exact verify_exchanges ok (h.mem_planned inPlan).1
  there t mem := by
    obtain ⟨t₀, inPlan, ok⟩ := exists_of_mem_mapM h.verifying mem
    exact verify_there (h.mem_planned inPlan).2 ok
  once := by
    obtain ⟨groups, -, once, same⟩ := plan_grouping h.planning
    have consumes : transitions.flatMap (·.consumes) = planned.flatMap (·.consumes) := by
      obtain ⟨pairs, rfl, rfl, each⟩ := mapM_pairs h.verifying
      rw [flatMap_map, flatMap_map]
      apply flatMap_congr
      intro p mem
      exact (verify_keys (each p mem)).1
    rw [consumes, same]
    exact (perm_sortByKey.flatMap_right _).nodup_iff.mpr once

end Checked

/-- A registry that can be written. -/
structure Writable (workchains : Set (BitVec 32)) (leaves : LeafMap) : Prop where
  tiled : Tiled workchains leaves
  keyed : Keyed leaves
  roomy : Roomy leaves

theorem Writable.staged (h : Writable workchains leaves)
    (staged : StagedAll workchains transitions leaves leaves')
    (room : ∀ t ∈ transitions, ∀ o ∈ t.outputs, o.descriptor.Roomy) :
    Writable workchains leaves' := by
  have cases_ {k : ShardRegistryKey} {leaf : ShardRegistryLeaf} (found : leaves'[k]? = some leaf) :
      (∃ t ∈ transitions, leaf ∈ t.outputs ∧ shardTopKey leaf.block = k) ∨
        leaves[k]? = some leaf := by
    by_cases output : ∃ t ∈ transitions, k ∈ t.outputKeys
    · obtain ⟨t, mem, output⟩ := output
      obtain ⟨o, inside, rfl⟩ := mem_outputKeys.mp output
      rw [staged.enters t mem o inside] at found
      cases found
      exact .inl ⟨t, mem, inside, rfl⟩
    · push Not at output
      by_cases spent : ∃ t ∈ transitions, k ∈ t.consumes
      · rw [staged.gone k spent output] at found
        cases found
      · push Not at spent
        rw [staged.others k spent output] at found
        exact .inr found
  refine ⟨staged.tiled, ?_, ?_⟩
  · intro k leaf found
    rcases cases_ found with ⟨t, mem, output, key⟩ | old
    · exact key
    · exact h.keyed old
  · intro k leaf found
    rcases cases_ found with ⟨t, mem, output, -⟩ | old
    · exact room t mem leaf output
    · exact h.roomy old

/-- A checked batch is applied once its descriptors have room and its fees fit. -/
theorem apply_of_checked (writable : Writable workchains r.leaves)
    (checked : Checked tlb r.leaves ltLimit tops items planned transitions)
    (room : ∀ t ∈ transitions, ∀ o ∈ t.outputs, o.descriptor.Roomy)
    (fees : ∀ accepted : LeafMap,
      (∀ {k : ShardRegistryKey} {o : ShardRegistryLeaf}, accepted[k]? = some o →
        shardTopKey o.block = k ∧ ∃ t ∈ transitions, o ∈ t.outputs) →
      buildShardFeesDictionary tlb accepted = .ok ()) :
    ∃ r', r.apply tlb tops ltLimit = .ok r' ∧
      StagedAll workchains transitions r.leaves r'.leaves := by
  obtain ⟨leaves', accepted', staging, staged, looks⟩ : ∃ leaves' accepted',
      transitions.foldlM stageTransition (r.leaves, ∅) = .ok (leaves', accepted') ∧
      StagedAll workchains transitions r.leaves leaves' ∧ _ :=
    stage_all writable.tiled checked.stageable
  have after := writable.staged staged room
  obtain ⟨shardHashes, built⟩ := build_of_tiled after.keyed after.tiled after.roomy
  refine ⟨⟨leaves', accepted'⟩, apply_eq_ok.mpr ⟨items, planned, transitions, checked, staging,
    ⟨shardHashes, built⟩, fees accepted' ?_⟩, staged⟩
  intro k o found
  rw [looks k] at found
  split at found
  next output =>
    obtain ⟨t, mem, output⟩ := output
    obtain ⟨o', inside, rfl⟩ := mem_outputKeys.mp output
    rw [staged.enters t mem o' inside] at found
    cases found
    exact ⟨rfl, t, mem, inside⟩
  · cases found

end Apply

/-! ## One group at a time -/

/-- The tips of one transition: a tip that does not split, or two tips that split one parent. -/
def IsGroup (tlb : Codec) : List ShardTop → Prop
  | [top] => ∃ item, decodeShardTop tlb top = .ok item ∧ item.kind ≠ .split
  | [first, second] => ∃ x y, decodeShardTop tlb first = .ok x ∧ decodeShardTop tlb second = .ok y ∧
      x.kind = .split ∧ y.kind = .split ∧
      x.predecessor.map shardTopKey = y.predecessor.map shardTopKey
  | _ => False

/-- A part of the entries of a `ShardFees` dictionary that can be written can be written. -/
def Codec.FeesShrink (tlb : Codec) : Prop :=
  ∀ {entries entries' : List (ShardRegistryKey × CurrencyCollection × CurrencyCollection)},
    entries.Subperm entries' → tlb.feesFit entries' = true → tlb.feesFit entries = true

section Groups

variable {tlb : Codec} {ltLimit : UInt64} {workchains : Set (BitVec 32)} {r r' : ShardRegistry}
  {tops group : List ShardTop} {items : List DecodedShardTop}
  {planned transitions : List ShardRegistryTransition} {groups : List (List ShardTop)}

theorem buildShardFeesDictionary_mono (shrink : tlb.FeesShrink) {accepted accepted' : LeafMap}
    (sub : ∀ {k : ShardRegistryKey} {o : ShardRegistryLeaf}, accepted[k]? = some o →
      accepted'[k]? = some o) (h : buildShardFeesDictionary tlb accepted' = .ok ()) :
    buildShardFeesDictionary tlb accepted = .ok () := by
  unfold buildShardFeesDictionary at h ⊢
  rw [require_eq_ok] at h ⊢
  refine shrink ?_ h
  have entries : accepted.toList.Subperm accepted'.toList := by
    apply subperm_of_subset ((nodup_toList_fst accepted).of_map _)
    rintro ⟨k, o⟩ mem
    apply Std.ExtTreeMap.mem_toList_iff_getElem?_eq_some.mpr
    exact sub (Std.ExtTreeMap.mem_toList_iff_getElem?_eq_some.mp mem)
  obtain ⟨l, same, sublist⟩ := entries
  exact ⟨_, (same.map _).map _, (sublist.map _).map _⟩

/-- A group that can be applied to some leaves as one transition. -/
structure Ready (tlb : Codec) (leaves : LeafMap) (ltLimit : UInt64) (group : List ShardTop)
    (t : ShardRegistryTransition) : Prop where
  checked : ∃ items t₀, Checked tlb leaves ltLimit group items [t₀] [t]
  room : ∀ o ∈ t.outputs, o.descriptor.Roomy
  fees : ∀ accepted : LeafMap,
    (∀ {k : ShardRegistryKey} {o : ShardRegistryLeaf}, accepted[k]? = some o →
      shardTopKey o.block = k ∧ o ∈ t.outputs) →
    buildShardFeesDictionary tlb accepted = .ok ()

theorem Ready.congr (h : Ready tlb leaves ltLimit group t)
    (same : ∀ k ∈ t.consumes, leaves[k]? = leaves'[k]?) : Ready tlb leaves' ltLimit group t := by
  obtain ⟨items, t₀, checked⟩ := h.checked
  have ok : verifyShardRegistryTransition tlb leaves ltLimit t₀ = .ok t := by
    cases mapM_eq_ok.mp checked.verifying with
    | cons head _ => exact head
  rw [(verify_keys ok).1] at same
  rw [verify_congr (checked.mem_planned mem_cons_self).2 same] at ok
  refine ⟨⟨items, t₀, checked.decoding, checked.planning, ?_⟩, h.room, h.fees⟩
  exact mapM_eq_ok.mpr (.cons ok .nil)

theorem Ready.apply
    (h : Ready tlb r.leaves ltLimit group t) (writable : Writable workchains r.leaves) :
    ∃ r', r.apply tlb group ltLimit = .ok r' ∧ StagedAll workchains [t] r.leaves r'.leaves := by
  obtain ⟨items, t₀, checked⟩ := h.checked
  apply apply_of_checked writable checked
  · simpa using h.room
  · intro accepted inside
    apply h.fees accepted
    intro k o found
    simpa using inside found

theorem apply_groups {steps : List (List ShardTop × ShardRegistryTransition)}
    (writable : Writable workchains r.leaves) (stageable : Stageable r.leaves (steps.map (·.2)))
    (ready : ∀ s ∈ steps, Ready tlb r.leaves ltLimit s.1 s.2) :
    ∃ r', (steps.map (·.1)).foldlM (fun r group => ShardRegistry.apply tlb r group ltLimit) r =
        .ok r' ∧
      StagedAll workchains (steps.map (·.2)) r.leaves r'.leaves := by
  induction steps generalizing r with
  | nil => exact ⟨r, rfl, writable.tiled, by simp, by simp, by simp⟩
  | cons s steps ih =>
    have now := ready s mem_cons_self
    obtain ⟨ex, there⟩ := stageable.head
    obtain ⟨middle, applied, first⟩ := now.apply writable
    have written := writable.staged first (by simpa using now.room)
    have later : ∀ s' ∈ steps, Ready tlb middle.leaves ltLimit s'.1 s'.2 := by
      intro s' mem
      apply (ready s' (mem_cons_of_mem _ mem)).congr
      intro k consumed
      obtain ⟨old, unspent⟩ := stageable.unspent (mem_map_of_mem mem) consumed
      exact (first.untouched ex writable.tiled there old unspent).2.symm
    obtain ⟨r', run, rest⟩ := ih written (stageable.tail first) later
    refine ⟨r', ?_, first.cons rest (stageable.apart writable.tiled first)⟩
    exact bind_eq_ok.mpr ⟨middle, applied, run⟩

theorem IsGroup.decoded (h : IsGroup tlb group) :
    ∃ items, group.mapM (decodeShardTop tlb) = .ok items := by
  match group, h with
  | [top], ⟨item, decoded, _⟩ => exact ⟨[item], mapM_eq_ok.mpr (.cons decoded .nil)⟩
  | [first, second], ⟨x, y, decoded₁, decoded₂, _⟩ =>
    exact ⟨[x, y], mapM_eq_ok.mpr (.cons decoded₁ (.cons decoded₂ .nil))⟩

theorem IsGroup.groupOf {part : List DecodedShardTop}
    {canonical : List (List DecodedShardTop × ShardRegistryTransition)} (h : IsGroup tlb group)
    (decoding : group.mapM (decodeShardTop tlb) = .ok part) (grouping : Grouping items canonical)
    (once : Once canonical) (inside : ∀ item ∈ part, item ∈ items) (distinct : part.Nodup) :
    ∃ tips t, tips.Perm part ∧ GroupOf tips t := by
  have sound (item : DecodedShardTop) (mem : item ∈ part) := (decoded_sound decoding item mem).1
  match group, h, decoding with
  | [top], ⟨item, decoded, kind⟩, decoding =>
    obtain rfl : part = [item] := by
      rw [mapM_eq_ok.mpr (.cons decoded .nil)] at decoding
      exact (Except.ok.inj decoding).symm
    exact ⟨[item], item.transition, .refl _,
      .alone ((sound item (by simp)).parentKey_eq_none.mpr kind)⟩
  | [first, second], ⟨x, y, decoded₁, decoded₂, kind₁, kind₂, parents⟩, decoding =>
    obtain rfl : part = [x, y] := by
      rw [mapM_eq_ok.mpr (.cons decoded₁ (.cons decoded₂ .nil))] at decoding
      exact (Except.ok.inj decoding).symm
    obtain ⟨p, single₁, -⟩ := (sound x (by simp)).split kind₁
    obtain ⟨q, single₂, -⟩ := (sound y (by simp)).split kind₂
    have parent₁ : x.parentKey = some (shardTopKey p) := by
      simp [DecodedShardTop.parentKey, kind₁, single₁]
    have parent₂ : y.parentKey = some (shardTopKey p) := by
      have same : shardTopKey p = shardTopKey q := by simpa [single₁, single₂] using parents
      simp [DecodedShardTop.parentKey, kind₂, single₂, same]
    -- the batch has one group that consumes this parent, and it has no third tip
    obtain ⟨g, hg, mem₁⟩ := grouping.exists_group (inside x (by simp))
    obtain ⟨g', hg', mem₂⟩ := grouping.exists_group (inside y (by simp))
    obtain rfl : g = g' := Grouping.eq_of_consumes once hg hg'
      ((grouping.group g hg).mem_consumes mem₁ parent₁)
      ((grouping.group g' hg').mem_consumes mem₂ parent₂)
    refine ⟨g.1, g.2, ?_, grouping.group g hg⟩
    obtain ⟨tips, t⟩ := g
    have covers : [x, y] ⊆ tips := by
      intro item mem
      rw [mem_pair] at mem
      rcases mem with rfl | rfl
      · exact mem₁
      · exact mem₂
    have sub := subperm_of_subset distinct covers
    cases grouping.group _ hg with
    | alone single =>
      have le := sub.length_le
      simp at le
    | pair => exact (sub.perm_of_length_le (Nat.le_refl _)).symm

/-- The groups of a checked batch are checked alone, as the transitions of the batch. -/
theorem Checked.steps (h : Checked tlb leaves ltLimit tops items planned transitions)
    (same : groups.flatten.Perm tops) (each : ∀ group ∈ groups, IsGroup tlb group) :
    ∃ steps : List (List ShardTop × ShardRegistryTransition), steps.map (·.1) = groups ∧
      (steps.map (·.2)).Perm transitions ∧
      ∀ s ∈ steps, ∃ part t₀, Checked tlb leaves ltLimit s.1 part [t₀] [s.2] := by
  obtain ⟨canonical, grouping, once, plannedAs⟩ := plan_grouping h.planning
  obtain ⟨parts, rfl, decoded⟩ := exists_pairs fun group mem => (each group mem).decoded
  have whole : (parts.flatMap (·.2)).Perm items := by
    obtain ⟨items', decoding, perm⟩ := mapM_perm same.symm h.decoding
    have flat : parts.flatMap Prod.fst = (parts.map Prod.fst).flatten := by
      rw [flatMap_def]
    have joined := mapM_flatMap decoded
    rw [flat, decoding] at joined
    rwa [← Except.ok.inj joined]
  have distinct := nodup_flatMap.mp (whole.nodup_iff.mpr grouping.nodup)
  have member (p) (hp : p ∈ parts) : ∀ item ∈ p.2, item ∈ items := fun item mem =>
    whole.mem_iff.mp (mem_flatMap.mpr ⟨p, hp, mem⟩)
  have grouped : ∀ p ∈ parts, ∃ g : List DecodedShardTop × ShardRegistryTransition,
      g.1.Perm p.2 ∧ GroupOf g.1 g.2 := by
    intro p mem
    obtain ⟨tips, t, perm, group⟩ := (each p.1 (mem_map_of_mem mem)).groupOf (decoded p mem)
      grouping once (member p mem) (distinct.1 p mem)
    exact ⟨(tips, t), perm, group⟩
  obtain ⟨plans, rfl, groupOf⟩ := exists_pairs grouped
  have regrouped : Grouping items (plans.map (·.2)) := by
    refine ⟨?_, ?_, grouping.targets⟩
    · intro g mem
      obtain ⟨q, hq, rfl⟩ := mem_map.mp mem
      exact (groupOf q hq).2
    · refine List.Perm.trans ?_ whole
      rw [flatMap_map, flatMap_map]
      exact List.Perm.flatMap_left _ fun q mem => (groupOf q mem).1
  have perm : ((plans.map (·.2)).map (·.2)).Perm planned := by
    rw [plannedAs]
    exact (regrouped.perm grouping once).trans perm_sortByKey.symm
  obtain ⟨verified, verifying, permuted⟩ := mapM_perm perm.symm h.verifying
  rw [mapM_map, mapM_map] at verifying
  obtain ⟨steps, rfl, rfl, checked⟩ := mapM_pairs verifying
  refine ⟨steps.map fun z => (z.1.1.1, z.2), by simp, ?_, ?_⟩
  · rw [map_map]
    exact permuted
  intro s mem
  obtain ⟨z, hz, rfl⟩ := mem_map.mp mem
  have inPlans := mem_map_of_mem (f := Prod.fst) hz
  obtain ⟨tips, group⟩ := groupOf z.1 inPlans
  have inParts := mem_map_of_mem (f := Prod.fst) inPlans
  have decoding := decoded z.1.1 inParts
  have alone : Grouping z.1.1.2 [z.1.2] := by
    refine ⟨by simpa using group, by simpa using tips, ?_⟩
    apply List.Nodup.map_on _ (distinct.1 z.1.1 inParts)
    intro x hx y hy
    exact inj_on_of_nodup_map grouping.targets (member z.1.1 inParts x hx)
      (member z.1.1 inParts y hy)
  have spent : Once [z.1.2] := by
    have inPlan := perm.mem_iff.mp (mem_map_of_mem (mem_map_of_mem inPlans))
    obtain ⟨part, consumed, -⟩ := (h.mem_planned inPlan).1
    simpa [Once] using consumed.nodup
  refine ⟨z.1.1.2, z.1.2.2, decoding, ?_, mapM_eq_ok.mpr (.cons (checked z hz) .nil)⟩
  exact alone.planned spent fun item mem => (decoded_sound decoding item mem).1

theorem applied_staged (writable : Writable workchains r.leaves)
    (checked : Checked tlb r.leaves ltLimit tops items planned transitions)
    (staging : transitions.foldlM stageTransition (r.leaves, ∅) = .ok (r'.leaves, r'.accepted)) :
    StagedAll workchains transitions r.leaves r'.leaves ∧
      ∀ k : ShardRegistryKey, (∃ t ∈ transitions, k ∈ t.outputKeys) →
        r'.accepted[k]? = r'.leaves[k]? := by
  obtain ⟨leaves', accepted', staging', staged, looks⟩ : ∃ leaves' accepted',
      transitions.foldlM stageTransition (r.leaves, ∅) = .ok (leaves', accepted') ∧
      StagedAll workchains transitions r.leaves leaves' ∧
      ∀ k : ShardRegistryKey, accepted'[k]? =
        if ∃ t ∈ transitions, k ∈ t.outputKeys then leaves'[k]? else (∅ : LeafMap)[k]? :=
    stage_all writable.tiled checked.stageable
  rw [staging, Except.ok.injEq, Prod.mk.injEq] at staging'
  obtain ⟨rfl, rfl⟩ := staging'
  refine ⟨staged, ?_⟩
  intro k output
  rw [looks k, if_pos output]

theorem apply_sequentially (shrink : tlb.FeesShrink) (writable : Writable workchains r.leaves)
    (ok : r.apply tlb tops ltLimit = .ok r') (same : groups.flatten.Perm tops)
    (each : ∀ group ∈ groups, IsGroup tlb group) :
    ∃ r'', groups.foldlM (fun r group => ShardRegistry.apply tlb r group ltLimit) r = .ok r'' ∧
      r''.leaves = r'.leaves := by
  obtain ⟨items, planned, transitions, checked, staging, ⟨shardHashes, built⟩, fees⟩ :=
    apply_eq_ok.mp ok
  obtain ⟨staged, accepts⟩ := applied_staged writable checked staging
  obtain ⟨steps, rfl, perm, alone⟩ := checked.steps same each
  have entered {t : ShardRegistryTransition} (mem : t ∈ steps.map (·.2)) :=
    staged.enters t (perm.mem_iff.mp mem)
  have ready : ∀ s ∈ steps, Ready tlb r.leaves ltLimit s.1 s.2 := by
    intro s mem
    have inSteps := mem_map_of_mem (f := Prod.snd) mem
    refine ⟨alone s mem, ?_, ?_⟩
    · intro o output
      exact roomy_of_build built (entered inSteps o output)
    · intro accepted inside
      apply buildShardFeesDictionary_mono shrink _ fees
      intro k o found
      obtain ⟨rfl, output⟩ := inside found
      rw [accepts]
      · exact entered inSteps o output
      · exact ⟨s.2, perm.mem_iff.mp inSteps, mem_outputKeys.mpr ⟨o, output, rfl⟩⟩
  obtain ⟨r'', run, staged'⟩ := apply_groups writable (checked.stageable.perm perm.symm) ready
  exact ⟨r'', run, staged'.unique staged fun t => perm.mem_iff⟩

theorem apply_perm {tops' : List ShardTop} (same : tops.Perm tops')
    (ok : r.apply tlb tops ltLimit = .ok r') : r.apply tlb tops' ltLimit = .ok r' := by
  obtain ⟨items, planned, transitions, checked, rest⟩ := apply_eq_ok.mp ok
  obtain ⟨items', decoding, perm⟩ := mapM_perm same checked.decoding
  have planning := plan_perm perm.symm
    (fun item mem => (decoded_sound checked.decoding item mem).1) checked.planning
  exact apply_eq_ok.mpr ⟨items', planned, transitions,
    ⟨decoding, planning, checked.verifying⟩, rest⟩

end Groups

/-! ## The method -/

/-- A descriptor of the newer constructor keeps its currencies in a reference, so it always leaves
room for the tag bit. -/
def Codec.NewDescriptorsRoomy (tlb : Codec) : Prop :=
  ∀ {fields : ShardDescriptorFields} {cell : Cell}, tlb.encode .a fields = some cell → cell.Roomy

section Method

variable {tlb : Codec} {ltLimit : UInt64} {r r' : ShardRegistry} {tops : List ShardTop}

theorem Reachable.roomy (room : tlb.NewDescriptorsRoomy) (h : Reachable tlb r) :
    Roomy r.leaves := by
  refine h.induct (P := fun r => Roomy r.leaves) (fun _ built => roomy_of_build built) ?_
  intro r r' workchains now updateCatchain ih ok k leaf found
  obtain ⟨old, before, rewritten⟩ := (postprocess_spec ok).2 found
  obtain ⟨sibling, expired, fields', -, -, ⟨rfl, -⟩ | ⟨cell, encoded, rfl⟩⟩ := rewritten.moved
  · exact ih before
  · exact room encoded

theorem Reachable.writable (room : tlb.NewDescriptorsRoomy) (h : Reachable tlb r) :
    Writable { w | ∃ k ∈ r.leaves, k.workchain = w } r.leaves :=
  ⟨tiled_of_partition h.partition, h.keyed, h.roomy room⟩

theorem applyInPlace_run : (ShardRegistry.applyInPlace tlb tops ltLimit).run.run r =
    match r.apply tlb tops ltLimit with
    | .ok r' => (.ok (), r')
    | .error e => (.error e, r) := by
  change (ExceptT.bindCont (fun r' => (set r' : ExceptT Fault (StateM ShardRegistry) Unit))
    (r.apply tlb tops ltLimit) : StateM ShardRegistry (Except Fault Unit)) r = _
  cases r.apply tlb tops ltLimit <;> rfl

theorem applyInPlace_run_eq_ok :
    (ShardRegistry.applyInPlace tlb tops ltLimit).run.run r = (.ok (), r') ↔
      r.apply tlb tops ltLimit = .ok r' := by
  rw [applyInPlace_run]
  cases r.apply tlb tops ltLimit with
  | ok r'' =>
    constructor
    · intro same
      cases same
      rfl
    · intro same
      cases same
      rfl
  | error e =>
    constructor
    · intro same
      cases same
    · intro same
      cases same

theorem forM_applyInPlace_run {groups : List (List ShardTop)}
    (h : groups.foldlM (fun r group => ShardRegistry.apply tlb r group ltLimit) r = .ok r') :
    (groups.forM fun group => ShardRegistry.applyInPlace tlb group ltLimit).run.run r =
      (.ok (), r') := by
  induction groups generalizing r with
  | nil =>
    cases h
    rfl
  | cons group groups ih =>
    rw [foldlM_cons, bind_eq_ok] at h
    obtain ⟨middle, first, rest⟩ := h
    change ((ShardRegistry.applyInPlace tlb group ltLimit) >>= fun _ =>
      groups.forM fun group => ShardRegistry.applyInPlace tlb group ltLimit).run.run r = _
    rw [ExceptT.run_bind, StateT.run_bind, applyInPlace_run_eq_ok.mpr first]
    exact ih rest

/-- A batch changes the registry as a whole or not at all, the order of its tips does not matter,
and its groups can be applied one at a time in any order. -/
theorem apply_atomic_order_free_sequential (tlb : Codec) (shrink : tlb.FeesShrink)
    (room : tlb.NewDescriptorsRoomy) (r : ShardRegistry) (tops : List ShardTop)
    (ltLimit : UInt64) :
    (∀ e r', (ShardRegistry.applyInPlace tlb tops ltLimit).run.run r = (.error e, r') → r' = r) ∧
    (∀ tops', tops'.Perm tops →
      ((ShardRegistry.applyInPlace tlb tops' ltLimit).run.run r).1.isOk =
        ((ShardRegistry.applyInPlace tlb tops ltLimit).run.run r).1.isOk ∧
      ((ShardRegistry.applyInPlace tlb tops' ltLimit).run.run r).2 =
        ((ShardRegistry.applyInPlace tlb tops ltLimit).run.run r).2) ∧
    (Reachable tlb r → ∀ r',
      (ShardRegistry.applyInPlace tlb tops ltLimit).run.run r = (.ok (), r') →
      ∀ groups : List (List ShardTop), groups.flatten.Perm tops →
        (∀ group ∈ groups, IsGroup tlb group) →
        ∃ r'', (groups.forM fun group =>
            ShardRegistry.applyInPlace tlb group ltLimit).run.run r = (.ok (), r'') ∧
          r''.leaves = r'.leaves) := by
  refine ⟨?_, ?_, ?_⟩
  · intro e r' run
    rw [applyInPlace_run] at run
    cases applied : r.apply tlb tops ltLimit with
    | ok r'' =>
      rw [applied] at run
      cases run
    | error e' =>
      rw [applied] at run
      cases run
      rfl
  · intro tops' same
    rw [applyInPlace_run, applyInPlace_run]
    cases applied : r.apply tlb tops ltLimit with
    | ok r' =>
      rw [apply_perm same.symm applied]
      exact ⟨rfl, rfl⟩
    | error e =>
      cases applied' : r.apply tlb tops' ltLimit with
      | ok r' =>
        rw [apply_perm same applied'] at applied
        cases applied
      | error e' => exact ⟨rfl, rfl⟩
  · intro reached r' run groups same each
    obtain ⟨r'', sequential, leaves⟩ := apply_sequentially shrink (reached.writable room)
      (applyInPlace_run_eq_ok.mp run) same each
    exact ⟨r'', forM_applyInPlace_run sequential, leaves⟩

end Method

/-! ## A batch with a split -/

theorem tableCodec_roomy {table : List (DescriptorTag × ShardDescriptorFields)}
    (small : table.length < 1023) : (tableCodec table).NewDescriptorsRoomy := by
  intro fields cell encoded
  obtain ⟨i, found, rfl⟩ := Option.map_eq_some_iff.mp encoded
  obtain ⟨inside, -⟩ := idxOf?_eq_some_iff.mp found
  refine ⟨?_, Nat.zero_le _⟩
  change (List.replicate i true).length < 1023
  rw [length_replicate]
  omega

/-- The left half is split before or after the tip of the right half is taken. -/
theorem apply_atomic_order_free_sequential_pair :
    ∃ r r', (ShardRegistry.applyInPlace splitCodec (rightTip :: quarterTips) 100).run.run
        splitStart = (.ok (), r) ∧
      ([quarterTips, [rightTip]].forM fun group =>
        ShardRegistry.applyInPlace splitCodec group 100).run.run splitStart = (.ok (), r') ∧
      r'.leaves = r.leaves ∧
      r.seqnos = [(leftQuarter true, 8), (leftQuarter false, 8), (getChild root false, 9)] := by
  obtain ⟨-, -, sequential⟩ := apply_atomic_order_free_sequential splitCodec (fun _ _ => rfl)
    (tableCodec_roomy (by decide)) splitStart (rightTip :: quarterTips) 100
  have decoded {top : ShardTop} (ok : (decodeShardTop splitCodec top).isOk = true) :
      decodeShardTop splitCodec top =
        .ok (resultD (decodeShardTop splitCodec top) ⟨default, .linear, []⟩) := eq_ok_resultD ok
  have groups : ∀ group ∈ [quarterTips, [rightTip]], IsGroup splitCodec group := by
    intro group mem
    rcases mem_pair.mp mem with rfl | rfl
    · exact ⟨_, _, decoded (by decide +kernel), decoded (by decide +kernel), by decide +kernel,
        by decide +kernel, by decide +kernel⟩
    · exact ⟨_, decoded (by decide +kernel), by decide +kernel⟩
  have first := applyInPlace_run_eq_ok.mpr splitStart_apply
  obtain ⟨r', run, leaves⟩ := sequential splitStart_reachable _ first [quarterTips, [rightTip]]
    perm_append_comm groups
  exact ⟨_, r', first, run, leaves, by decide +kernel⟩

end Gton.Collator
