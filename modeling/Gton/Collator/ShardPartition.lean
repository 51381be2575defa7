import Gton.Collator.ShardFSM
import Gton.Collator.ShardTree

/-!
# Partitions of the account space

No operation of the registry leaves the partition of a workchain, and a registry is read back as
it was written.
-/

namespace Gton.Collator

open Gton.Shard
open Gton.Lib.Tiling
open Gton.Lib.Fallible
open List

/-! ## Every leaf of a registry -/

/-- A registry read from a dictionary and changed by any successful calls. -/
inductive Reachable (tlb : Codec) : ShardRegistry → Prop
  | parse {shardHashes : ShardHashes} {r : ShardRegistry}
      (ok : ShardRegistry.parse tlb shardHashes = .ok r) : Reachable tlb r
  | apply {r r' : ShardRegistry} {tops : List ShardTop} {ltLimit : UInt64}
    (before : Reachable tlb r)
      (ok : r.apply tlb tops ltLimit = .ok r') : Reachable tlb r'
  | activate {r r' : ShardRegistry} {workchains : WorkchainMap} {now newBlockSeqno : UInt32}
      (before : Reachable tlb r)
      (ok : activateMasterShardWorkchains tlb r workchains now newBlockSeqno = .ok r') :
      Reachable tlb r'
  | postprocess {r r' : ShardRegistry} {workchains : WorkchainMap} {now : UInt32}
      {updateCatchain : Bool} (before : Reachable tlb r)
      (ok : postprocessMasterShardRegistry tlb r workchains now updateCatchain = .ok r') :
      Reachable tlb r'

/-- What a rewritten descriptor keeps of the one it replaces. -/
structure Rewrites (fields fields' : ShardDescriptorFields) : Prop where
  seqno : fields'.seqno = fields.seqno
  rootHash : fields'.rootHash = fields.rootHash
  fileHash : fields'.fileHash = fields.fileHash
  readable : Readable fields → Readable fields'

/-- A property of leaves that holds of what is decoded and survives a rewritten descriptor. -/
structure LeafProperty (tlb : Codec) (P : ShardRegistryKey → ShardRegistryLeaf → Prop) : Prop where
  decoded : ∀ {workchain shardID descriptor leaf},
    decodeShardRegistryLeaf tlb workchain shardID descriptor = .ok leaf →
      P ⟨workchain, shardID⟩ leaf
  rewritten : ∀ {key leaf fields tag cell}, P key leaf → Rewrites leaf.fields fields →
    tlb.encode tag fields = some cell → P key { leaf with descriptor := cell, fields := fields }

variable {workchains : WorkchainMap} {r' : ShardRegistry} {leaves : LeafMap} {now : UInt32}
  {updateCatchain : Bool} {shardHashes : ShardHashes}

section LeafProperty

variable {tlb : Codec} {P : ShardRegistryKey → ShardRegistryLeaf → Prop}
  {leaf output' output : ShardRegistryLeaf} {key : ShardRegistryKey} {workchain : BitVec 32}
  {predecessor g f fields : ShardDescriptorFields} {r : ShardRegistry} {newBlockSeqno : UInt32}

/-- The property of every leaf of a map. -/
def Everywhere (P : ShardRegistryKey → ShardRegistryLeaf → Prop) (leaves : LeafMap) : Prop :=
  ∀ {k : ShardRegistryKey} {leaf : ShardRegistryLeaf}, leaves[k]? = some leaf → P k leaf

theorem Everywhere.empty : Everywhere P ∅ := by
  intro k leaf found
  cases found

theorem Everywhere.insert
    (h : Everywhere P leaves) (new : P key leaf) : Everywhere P (leaves.insert key leaf) := by
  intro k l found
  simp only [Std.ExtTreeMap.getElem?_insert, Std.LawfulEqCmp.compare_eq_iff_eq] at found
  split at found
  next same =>
    cases found
    rw [← same]
    exact new
  · exact h found

theorem key_of_decode {shardID : BitVec 64} {descriptor : Cell}
    (h : decodeShardRegistryLeaf tlb workchain shardID descriptor = .ok leaf) :
    shardTopKey leaf.block = ⟨workchain, shardID⟩ := (decoded_of_decode h).key

section

variable (hP : LeafProperty tlb P)
include hP

theorem LeafProperty.parseTree (tree : Cell) (shardID : BitVec 64) (leaves : LeafMap)
    {leaves' : LeafMap} (h : Everywhere P leaves)
    (ok : parseShardRegistryTree tlb workchain tree shardID leaves = .ok leaves') :
    Everywhere P leaves' := by
  fun_induction parseShardRegistryTree tlb workchain tree shardID leaves generalizing leaves' with
  | case1 => cases ok
  | case2 => cases ok
  | case3 bits refs shardID leaves =>
    obtain ⟨leaf, decoded, inserted⟩ := bind_eq_ok.mp ok
    obtain ⟨_, -, same⟩ := bind_eq_ok.mp inserted
    cases same
    apply h.insert
    rw [key_of_decode decoded]
    exact hP.decoded decoded
  | case4 left right shardID leaves ihl ihr =>
    simp only [bind_eq_ok] at ok
    obtain ⟨leftID, -, rightID, -, middle, parsed, rest⟩ := ok
    exact ihr rightID middle (ihl leftID h parsed) rest
  | case5 => cases ok

theorem LeafProperty.parse (ok : parseShardRegistryLeaves tlb shardHashes = .ok leaves) :
    Everywhere P leaves := by
  refine foldlM_keeps (P := Everywhere P) ?_ Everywhere.empty ok
  intro before item after _ h step
  obtain ⟨_, -, step⟩ := bind_eq_ok.mp step
  split at step
  · exact hP.parseTree _ _ _ h step
  · cases step

theorem LeafProperty.inherit (h : P key output)
    (ok : inheritShardRegistryFSM tlb output predecessor = .ok output') : P key output' := by
  unfold inheritShardRegistryFSM at ok
  split at ok
  · cases ok
    exact h
  · simp only [bind_eq_ok] at ok
    obtain ⟨tag, -, descriptor, stored, same⟩ := ok
    cases same
    unfold storeMasterShardDescriptor at stored
    split at stored
    · cases stored
    next cell encoded =>
      cases stored
      exact hP.rewritten h ⟨rfl, rfl, rfl, fun r => ⟨r.1, r.2, r.3, r.4⟩⟩ encoded

omit hP in
theorem inherit_block (ok : inheritShardRegistryFSM tlb output predecessor = .ok output') :
    output'.block = output.block := by
  unfold inheritShardRegistryFSM at ok
  split at ok
  · cases ok
    rfl
  · simp only [bind_eq_ok] at ok
    obtain ⟨tag, -, descriptor, -, same⟩ := ok
    cases same
    rfl

theorem LeafProperty.apply {tops : List ShardTop} {ltLimit : UInt64} (h : Everywhere P r.leaves)
    (ok : r.apply tlb tops ltLimit = .ok r') : Everywhere P r'.leaves := by
  obtain ⟨decoded, transitions, applied⟩ := ShardRegistry.apply_spec ok
  have tip (item : DecodedShardTop) (mem : item ∈ decoded) :
      P (shardTopKey item.leaf.block) item.leaf := by
    obtain ⟨top, -, spec⟩ := applied.tops item mem
    rw [key_of_decode spec.decoded]
    exact hP.decoded spec.decoded
  intro k leaf found
  rcases staged_sound applied.staged found with ⟨t, mem, output, rfl⟩ | ⟨old, -⟩
  · cases applied.transits t mem with
    | linear inside _ _ _ _ _ _ inherits =>
      obtain rfl := mem_singleton.mp output
      rw [inherit_block inherits]
      exact hP.inherit (tip _ inside) inherits
    | split inside₁ inside₂ =>
      rw [mem_pair] at output
      rcases output with rfl | rfl
      · exact tip _ inside₁
      · exact tip _ inside₂
    | merge inside =>
      obtain rfl := mem_singleton.mp output
      exact tip _ inside
  · exact h old

omit hP in
theorem activate_keep
    (ok : activateMasterShardWorkchains tlb r workchains now newBlockSeqno = .ok r')
    {I : LeafMap → Prop} (h : I r.leaves)
    (enter : ∀ {leaves : LeafMap} {workchain : BitVec 32} {w : WorkchainInfo} {cell : Cell}
      {leaf : ShardRegistryLeaf}, I leaves →
      tlb.encode .b (initialFields w newBlockSeqno) = some cell →
      decodeShardRegistryLeaf tlb workchain root cell = .ok leaf →
      I (leaves.insert ⟨workchain, root⟩ leaf)) : I r'.leaves := by
  unfold activateMasterShardWorkchains at ok
  simp only [bind_eq_ok] at ok
  obtain ⟨state, entered, _, -, _, -, same⟩ := ok
  cases same
  refine foldlM_keeps (P := fun state : Activation => I state.staged) ?_ h entered
  intro before item after _ h step
  unfold activateWorkchain at step
  split at step
  · cases step
    exact h
  · split at step
    · cases step
      exact h
    · simp only [bind_eq_ok, storeMasterShardDescriptor_eq_ok] at step
      obtain ⟨descriptor, encoded, leaf, decoded, same⟩ := step
      cases same
      exact enter h encoded decoded

theorem LeafProperty.activate (h : Everywhere P r.leaves)
    (ok : activateMasterShardWorkchains tlb r workchains now newBlockSeqno = .ok r') :
    Everywhere P r'.leaves := by
  apply activate_keep ok (I := Everywhere P) h
  intro leaves workchain w cell leaf h _ decoded
  exact Everywhere.insert h (hP.decoded decoded)

end

theorem Rewrites.refl (fields : ShardDescriptorFields) : Rewrites fields fields :=
  ⟨rfl, rfl, rfl, id⟩

theorem Rewrites.trans {h : ShardDescriptorFields} (first : Rewrites f g)
    (second : Rewrites g h) : Rewrites f h :=
  ⟨second.seqno.trans first.seqno, second.rootHash.trans first.rootHash,
    second.fileHash.trans first.fileHash, second.readable ∘ first.readable⟩

theorem Rewrites.of_flags (seqno : g.seqno = f.seqno)
    (rootHash : g.rootHash = f.rootHash) (fileHash : g.fileHash = f.fileHash)
    (flags : g.flags = f.flags)
    (marks : g.beforeSplit = true → g.beforeMerge = true →
      f.beforeSplit = true ∧ f.beforeMerge = true) :
    Rewrites f g := by
  refine ⟨seqno, rootHash, fileHash, ?_⟩
  intro r
  refine ⟨flags.trans r.flags, ?_, by rw [rootHash]; exact r.rootHash,
    by rw [fileHash]; exact r.fileHash⟩
  rintro ⟨hs, hm⟩
  exact r.oneTransition (marks hs hm)

theorem Announcement.enter_rewrites {announced : Announcement}
    (steady : announced ≠ .nothing → fields.beforeSplit = false) :
    Rewrites fields (announced.enter fields) := by
  cases announced with
  | nothing => exact .refl fields
  | split | merge => exact .of_flags rfl rfl rfl rfl fun hs hm => ⟨hs, hm⟩
  | due =>
    have marked := steady (by simp)
    refine .of_flags rfl rfl rfl rfl ?_
    intro hs
    simp [Announcement.enter, marked] at hs

theorem clearedFields_rewrites (fields : ShardDescriptorFields)
    (sibling : Option ShardDescriptorFields) (expired : Bool) :
    Rewrites fields (clearedFields fields sibling expired) := by
  unfold clearedFields
  split
  · refine .of_flags rfl rfl rfl rfl ?_
    simp
  · refine .of_flags rfl rfl rfl rfl ?_
    simp

theorem Moved.rewrites {fields' : ShardDescriptorFields}
    {sibling : Option ShardDescriptorFields} {workchain : Option WorkchainInfo} {depth : Nat}
    {expired : Bool} (h : Moved fields sibling workchain depth now updateCatchain expired fields') :
    Rewrites fields { fields' with nextCCUpdated := false } := by
  have entered :
      Rewrites fields { fields' with nextCatchainSeqno := fields.nextCatchainSeqno } := by
    rw [h.announced]
    refine (clearedFields_rewrites fields sibling expired).trans
      (Announcement.enter_rewrites ?_)
    intro some_
    unfold announcementOf at some_
    split at some_
    · split at some_
      next steady =>
        simpa using steady
      · exact absurd rfl some_
    · exact absurd rfl some_
  exact entered.trans (.of_flags rfl rfl rfl rfl fun hs hm => ⟨hs, hm⟩)

theorem LeafProperty.postprocess (hP : LeafProperty tlb P) (h : Everywhere P r.leaves)
    (ok : postprocessMasterShardRegistry tlb r workchains now updateCatchain = .ok r') :
    Everywhere P r'.leaves := by
  intro k leaf found
  obtain ⟨old, before, rewritten⟩ := (postprocess_spec ok).2 found
  obtain ⟨sibling, expired, fields', -, moved, ⟨rfl, -⟩ | ⟨cell, encoded, rfl⟩⟩ := rewritten.moved
  · exact h before
  · exact hP.rewritten (h before) moved.rewrites encoded

theorem Reachable.everywhere (hP : LeafProperty tlb P) (h : Reachable tlb r) :
    Everywhere P r.leaves := by
  induction h with
  | parse ok =>
    unfold ShardRegistry.parse at ok
    simp only [bind_eq_ok] at ok
    obtain ⟨leaves, parsed, _, -, _, -, same⟩ := ok
    cases same
    exact hP.parse parsed
  | apply _ ok ih => exact hP.apply ih ok
  | activate _ ok ih => exact hP.activate ih ok
  | postprocess _ ok ih => exact hP.postprocess ih ok

end LeafProperty

/-! ## The partition of a reachable registry -/

section Reachable

variable {tlb : Codec} {r : ShardRegistry} {w : BitVec 32}

theorem Reachable.keyed (h : Reachable tlb r) :
    Everywhere (fun key leaf => shardTopKey leaf.block = key) r.leaves :=
  h.everywhere (P := fun key leaf => shardTopKey leaf.block = key) ⟨key_of_decode, fun h _ _ => h⟩

theorem leafProperty_decoded (codec : tlb.RoundTrips) :
    LeafProperty tlb fun key leaf => leaf.Decoded tlb key where
  decoded := decoded_of_decode
  rewritten := by
    intro key leaf fields tag cell decoded rewrites encoded
    obtain ⟨old, parsed, same⟩ := decodeShardRegistryLeaf_eq_ok.mp decoded
    obtain ⟨-, -, readable⟩ := parseShardDescriptorFields_eq_ok.mp parsed
    have fieldsOld : leaf.fields = old := by rw [same]; rfl
    rw [fieldsOld] at rewrites
    refine decodeShardRegistryLeaf_eq_ok.mpr ⟨fields, parseShardDescriptorFields_eq_ok.mpr
      ⟨codec.ordinary encoded, ⟨tag, codec.decode_encode encoded⟩, rewrites.readable readable⟩, ?_⟩
    rw [same]
    simp [leafOf, rewrites.seqno, rewrites.rootHash, rewrites.fileHash]

/-- The shards a workchain has in the registry. -/
def ShardRegistry.shardsOf (r : ShardRegistry) (workchain : BitVec 32) : List (BitVec 64) :=
  (r.leaves.keys.filter (·.workchain == workchain)).map (·.shard)

theorem mem_leaves_iff {k : ShardRegistryKey} : k ∈ leaves ↔ ∃ leaf, leaves[k]? = some leaf := by
  rw [Std.ExtTreeMap.mem_iff_isSome_getElem?, Option.isSome_iff_exists]

theorem keys_eq (keyed : Everywhere (fun key leaf => shardTopKey leaf.block = key) leaves) :
    leaves.keys = (sortedShardRegistryLeaves leaves).map fun leaf => shardTopKey leaf.block := by
  unfold sortedShardRegistryLeaves
  rw [← Std.ExtTreeMap.map_fst_toList_eq_keys, map_map]
  apply map_congr_left
  intro item mem
  exact (keyed (Std.ExtTreeMap.mem_toList_iff_getElem?_eq_some.mp mem)).symm

theorem partition_of_build
    (keyed : Everywhere (fun key leaf => shardTopKey leaf.block = key) r.leaves)
    (built : buildShardHashesDictionary r.leaves = .ok shardHashes)
    (some_ : ∃ k ∈ r.leaves, k.workchain = w) : Partition (r.shardsOf w) := by
  have shards : r.shardsOf w = ((sortedShardRegistryLeaves r.leaves).filter
      (·.block.workchain == w)).map (·.block.shard) := by
    unfold ShardRegistry.shardsOf
    rw [keys_eq keyed, filter_map, map_map]
    rfl
  rw [partition_iff_tiles, shards, tiles_map]
  rcases buildShardHashesDictionary_spec built w with ⟨tree, ok, -⟩ | ⟨apart, -⟩
  · have ne : root ≠ 0#64 := by decide
    have tiles := ((buildTree_ok_iff_tiles ne rfl).mp ⟨tree, ok⟩).1
    exact tiles.perm (perm_insertionSort _ _)
  · obtain ⟨k, mem, here⟩ := some_
    obtain ⟨leaf, found⟩ := mem_leaves_iff.mp mem
    refine absurd ?_ (apart leaf (mem_sortedShardRegistryLeaves.mpr ⟨k, found⟩))
    rw [← here, ← keyed found]
    rfl

theorem mem_postprocess
    (ok : postprocessMasterShardRegistry tlb r workchains now updateCatchain = .ok r')
    (k : ShardRegistryKey) : k ∈ r'.leaves ↔ k ∈ r.leaves := by
  obtain ⟨rewrites, comes⟩ := postprocess_spec ok
  rw [mem_leaves_iff, mem_leaves_iff]
  constructor
  · rintro ⟨leaf, found⟩
    obtain ⟨old, before, -⟩ := comes found
    exact ⟨old, before⟩
  · rintro ⟨leaf, found⟩
    obtain ⟨leaf', after, -⟩ := rewrites found
    exact ⟨leaf', after⟩

theorem nodup_keys (leaves : LeafMap) : leaves.keys.Nodup := by
  rw [← Std.ExtTreeMap.map_fst_toList_eq_keys]
  exact nodup_toList_fst leaves

theorem partition_postprocess
    (ok : postprocessMasterShardRegistry tlb r workchains now updateCatchain = .ok r')
    (h : Partition (r.shardsOf w)) : Partition (r'.shardsOf w) := by
  have same : r.leaves.keys.Perm r'.leaves.keys := by
    rw [perm_ext_iff_of_nodup (nodup_keys _) (nodup_keys _)]
    intro k
    rw [Std.ExtTreeMap.mem_keys, Std.ExtTreeMap.mem_keys, mem_postprocess ok]
  rw [partition_iff_tiles] at h ⊢
  exact h.perm ((same.filter _).map _)

/-- Every registry that is reached could be written, or comes out of a pass over one. -/
theorem Reachable.induct {P : ShardRegistry → Prop}
    (written : ∀ {r shardHashes}, Reachable tlb r →
      buildShardHashesDictionary r.leaves = .ok shardHashes → P r)
    (pass : ∀ {r r' workchains now updateCatchain}, P r →
      postprocessMasterShardRegistry tlb r workchains now updateCatchain = .ok r' → P r')
    (h : Reachable tlb r) : P r := by
  induction h with
  | parse ok =>
    have reached := Reachable.parse ok
    unfold ShardRegistry.parse at ok
    simp only [bind_eq_ok] at ok
    obtain ⟨leaves, -, rebuilt, built, _, -, same⟩ := ok
    cases same
    exact written reached built
  | apply before ok =>
    obtain ⟨_, _, applied⟩ := ShardRegistry.apply_spec ok
    obtain ⟨shardHashes, built⟩ := applied.built
    exact written (before.apply ok) built
  | activate before ok =>
    have reached := before.activate ok
    unfold activateMasterShardWorkchains at ok
    simp only [bind_eq_ok] at ok
    obtain ⟨state, -, shardHashes, built, _, -, same⟩ := ok
    cases same
    exact written reached built
  | postprocess _ ok ih => exact pass ih ok

theorem Reachable.partition (h : Reachable tlb r) :
    ∀ w, (∃ k ∈ r.leaves, k.workchain = w) → Partition (r.shardsOf w) := by
  apply h.induct (P := fun r => ∀ w, (∃ k ∈ r.leaves, k.workchain = w) → Partition (r.shardsOf w))
  · exact fun reached built w => partition_of_build reached.keyed built
  · intro r r' workchains now updateCatchain ih ok w
    simp only [mem_postprocess ok]
    exact fun some_ => partition_postprocess ok (ih w some_)

/-- Trees are built of exactly the partitions, dictionaries are read back as they were written,
and every registry that is reached partitions each of its workchains. -/
theorem shard_registry_partition (tlb : Codec) (codec : tlb.RoundTrips) :
    (∀ leaves : List ShardRegistryLeaf, (∀ leaf ∈ leaves, leaf.descriptor.Roomy) →
      ((∃ tree, buildWorkchainShardTree root leaves = .ok tree) ↔
        Partition (leaves.map (·.block.shard)))) ∧
    (∀ (leaves : LeafMap) (shardHashes : ShardHashes), WellFormed tlb leaves → Routable leaves →
      buildShardHashesDictionary leaves = .ok shardHashes →
      parseShardRegistryLeaves tlb shardHashes = .ok leaves) ∧
    (∀ r : ShardRegistry, Reachable tlb r →
      (∀ w, (∃ k ∈ r.leaves, k.workchain = w) → Partition (r.shardsOf w)) ∧
      ∀ shardHashes : ShardHashes, Routable r.leaves → r.build = .ok shardHashes →
        parseShardRegistryLeaves tlb shardHashes = .ok r.leaves) := by
  refine ⟨?_, fun leaves shardHashes wf routable built => parse_build wf routable built, ?_⟩
  · intro leaves roomy
    have ne : root ≠ 0#64 := by decide
    rw [partition_iff_tiles, tiles_map]
    refine (buildTree_ok_iff_tiles ne rfl).trans ?_
    exact ⟨fun h => h.1, fun h => ⟨h, roomy⟩⟩
  · intro r reached
    refine ⟨reached.partition, ?_⟩
    intro shardHashes routable built
    exact parse_build (reached.everywhere (leafProperty_decoded codec)) routable built

end Reachable

/-! ## A small codec -/

/-- A codec that knows the descriptors of a table, each by its position. -/
def tableCodec (table : List (DescriptorTag × ShardDescriptorFields)) : Codec where
  decode cell := table[cell.bits.length]?
  encode tag fields :=
    (table.idxOf? (tag, fields)).map fun i => .mk false (List.replicate i true) []
  feesFit := fun _ => true
  rootHash shardHashes := some (shardHashes.toList.map fun item => UInt8.ofNat item.1.toNat)

theorem tableCodec_roundTrips (table : List (DescriptorTag × ShardDescriptorFields)) :
    (tableCodec table).RoundTrips where
  decode_encode := by
    intro tag fields cell encoded
    obtain ⟨i, found, rfl⟩ := Option.map_eq_some_iff.mp encoded
    change table[(List.replicate i true).length]? = _
    rw [length_replicate]
    obtain ⟨inside, here, -⟩ := idxOf?_eq_some_iff.mp found
    rw [getElem?_eq_getElem inside, here]
  ordinary := by
    intro tag fields cell encoded
    obtain ⟨i, -, rfl⟩ := Option.map_eq_some_iff.mp encoded
    rfl

/-- A descriptor of a shard with the given seqno. -/
def plainFields (shardID : BitVec 64) (seqno : UInt32) : ShardDescriptorFields where
  seqno := seqno
  regMCSeqno := 1
  startLT := 10
  endLT := 20
  genUtime := 5
  rootHash := List.replicate 32 1
  fileHash := List.replicate 32 2
  flags := 0
  beforeSplit := false
  beforeMerge := false
  wantSplit := false
  wantMerge := false
  nextCCUpdated := false
  nextCatchainSeqno := 0
  nextValidatorShard := shardID
  minRefMCSeqno := 0
  splitMerge := .none
  fees := ⟨0, []⟩
  created := ⟨0, []⟩

/-- The block of a descriptor. -/
def blockOf (fields : ShardDescriptorFields) : BlockID where
  workchain := 0#32
  shard := fields.nextValidatorShard
  seqno := fields.seqno
  rootHash := fields.rootHash
  fileHash := fields.fileHash

/-- The basechain in two halves. -/
def pairHashes : ShardHashes :=
  (∅ : ShardHashes).insert 0#32
    (.mk false [] [forkCell (.mk false [false] []) (.mk false [false, true] [])])

def leftQuarter (left : Bool) : BitVec 64 := getChild (getChild root true) left

/-- The left half is about to split into quarters, the right half goes on. -/
def splitCodec : Codec :=
  tableCodec [(.a, { plainFields (getChild root true) 7 with beforeSplit := true }),
    (.a, plainFields (getChild root false) 8), (.a, plainFields (leftQuarter true) 8),
    (.a, plainFields (leftQuarter false) 8), (.a, plainFields (getChild root false) 9)]

/-- The tip of a shard whose descriptor has `bits` bits, on top of a block of `parent`. -/
def tipOn (shard : BitVec 64) (bits : Nat) (next : UInt32) (parent : BitVec 64)
    (seqno : UInt32) : ShardTop :=
  ⟨blockOf (plainFields shard next), [blockOf (plainFields parent seqno)],
    .mk false (List.replicate bits true) [], .mk false [] [], []⟩

/-- The tips of the quarters and of the right half. -/
def quarterTips : List ShardTop :=
  [tipOn (leftQuarter true) 2 8 (getChild root true) 7,
    tipOn (leftQuarter false) 3 8 (getChild root true) 7]

def rightTip : ShardTop := tipOn (getChild root false) 4 9 (getChild root false) 8

def splitStart : ShardRegistry := resultD (ShardRegistry.parse splitCodec pairHashes) ⟨∅, ∅⟩

def splitRegistry : ShardRegistry :=
  resultD (splitStart.apply splitCodec (rightTip :: quarterTips) 100) ⟨∅, ∅⟩

theorem splitStart_reachable : Reachable splitCodec splitStart :=
  .parse (eq_ok_resultD (by decide +kernel))

theorem splitStart_apply :
    splitStart.apply splitCodec (rightTip :: quarterTips) 100 = .ok splitRegistry :=
  eq_ok_resultD (by decide +kernel)

/-- The registered blocks, by shard and seqno. -/
def ShardRegistry.seqnos (r : ShardRegistry) : List (BitVec 64 × UInt32) :=
  r.leaves.toList.map fun item => (item.1.shard, item.2.block.seqno)

theorem routable_of_toList (h : ∀ item ∈ leaves.toList, item.1.workchain ≠ masterchainWorkchainID ∧
      item.1.workchain ≠ invalidWorkchainID) : Routable leaves := by
  intro k leaf found
  exact h (k, leaf) (Std.ExtTreeMap.mem_toList_iff_getElem?_eq_some.mpr found)

/-- After a batch with a split the basechain is cut into three. -/
theorem shard_registry_partition_pair :
    splitRegistry.seqnos =
        [(leftQuarter true, 8), (leftQuarter false, 8), (getChild root false, 9)] ∧
      Partition (splitRegistry.shardsOf 0#32) ∧
      ∃ shardHashes, splitRegistry.build = .ok shardHashes ∧
        parseShardRegistryLeaves splitCodec shardHashes = .ok splitRegistry.leaves := by
  obtain ⟨-, -, reached⟩ := shard_registry_partition splitCodec (tableCodec_roundTrips _)
  obtain ⟨partition, readBack⟩ :=
    reached splitRegistry (splitStart_reachable.apply splitStart_apply)
  have built : splitRegistry.build = .ok (resultD splitRegistry.build ∅) :=
    eq_ok_resultD (by decide +kernel)
  refine ⟨by decide +kernel, partition 0#32 ⟨⟨0#32, getChild root false⟩, by decide +kernel, rfl⟩,
    _, built, ?_⟩
  exact readBack _ (routable_of_toList (by decide +kernel)) built

/-- A workchain that is active and never splits. -/
def activeWorkchain : WorkchainInfo where
  enabledSince := 0
  active := true
  zeroStateRootHash := List.replicate 32 1
  zeroStateFileHash := List.replicate 32 2
  minSplit := 0
  maxSplit := 0
  splitMergeDelay := 0
  splitMergeInterval := 0
  minSplitMergeInterval := 0
  maxSplitMergeDelay := 0

def masterCodec : Codec := tableCodec [(.b, initialFields activeWorkchain 1)]

def masterRegistry : ShardRegistry :=
  resultD (activateMasterShardWorkchains masterCodec ⟨∅, ∅⟩
    ((∅ : WorkchainMap).insert masterchainWorkchainID activeWorkchain) 0 1) ⟨∅, ∅⟩

/-- A leaf for the whole account space whose descriptor fills its cell. -/
def fullLeaf : ShardRegistryLeaf where
  block := blockOf (plainFields root 1)
  descriptor := .mk false (List.replicate 1023 true) []
  fields := plainFields root 1

/-- Activation enters a workchain -1 that the configuration lists; the dictionary written then is
refused when it is read. A descriptor that fills its cell leaves no room for the tag bit. -/
theorem activated_masterchain_is_refused :
    (Reachable masterCodec masterRegistry ∧ ∃ shardHashes,
      masterRegistry.build = .ok shardHashes ∧
      parseShardRegistryLeaves masterCodec shardHashes ≠ .ok masterRegistry.leaves) ∧
    Partition ([fullLeaf].map (·.block.shard)) ∧
      (buildWorkchainShardTree root [fullLeaf]).isOk = false := by
  have start : Reachable masterCodec ⟨∅, ∅⟩ := by
    have parsed : ShardRegistry.parse masterCodec ∅ =
        .ok (resultD (ShardRegistry.parse masterCodec ∅) ⟨∅, ∅⟩) :=
      eq_ok_resultD (by decide +kernel)
    exact .parse parsed
  have entered : activateMasterShardWorkchains masterCodec ⟨∅, ∅⟩
      ((∅ : WorkchainMap).insert masterchainWorkchainID activeWorkchain) 0 1 =
        .ok masterRegistry := eq_ok_resultD (by decide +kernel)
  have built : masterRegistry.build = .ok (resultD masterRegistry.build ∅) :=
    eq_ok_resultD (by decide +kernel)
  refine ⟨⟨start.activate entered, _, built, ?_⟩,
    partition_iff_tiles.mpr (.single (cover_nonempty_iff.mpr (by decide))), by decide +kernel⟩
  intro readBack
  have refused : (parseShardRegistryLeaves masterCodec (resultD masterRegistry.build ∅)).isOk =
      false := by decide +kernel
  rw [readBack] at refused
  cases refused

end Gton.Collator
