import Gton.Collator.ShardRegistry

/-!
# The split and merge announcements

After a batch of tips the masterchain enters the workchains that became active and then moves
each shard's announcement on: an announcement that is over is cleared, a split or a merge is
announced for a later time, and two siblings whose merge has come are marked. Every shard is
moved on its own, and reads its sibling as it stood before the pass.
-/

namespace Gton.Collator

open Std (ExtTreeMap)
open Gton.Shard
open Gton.Lib.Fallible

/-- `masterShardWorkchainInfo`. -/
structure WorkchainInfo where
  enabledSince : UInt32
  active : Bool
  zeroStateRootHash : List UInt8
  zeroStateFileHash : List UInt8
  minSplit : Nat
  maxSplit : Nat
  splitMergeDelay : UInt32
  splitMergeInterval : UInt32
  minSplitMergeInterval : UInt32
  maxSplitMergeDelay : UInt32
  deriving DecidableEq, Inhabited

abbrev WorkchainMap := ExtTreeMap (BitVec 32) WorkchainInfo (compareOn BitVec.toInt)

instance transCmp_toInt : Std.TransCmp (compareOn (BitVec.toInt (n := 32))) := inferInstance

def masterShardMaxSplitDepth : Nat := 60

/-! ## Entering workchains -/

/-- The descriptor of a workchain that has no block yet. -/
def initialFields (workchain : WorkchainInfo) (newBlockSeqno : UInt32) : ShardDescriptorFields where
  seqno := 0
  regMCSeqno := newBlockSeqno
  startLT := 0
  endLT := 0
  genUtime := 0
  rootHash := workchain.zeroStateRootHash
  fileHash := workchain.zeroStateFileHash
  flags := 0
  beforeSplit := false
  beforeMerge := false
  wantSplit := false
  wantMerge := false
  nextCCUpdated := false
  nextCatchainSeqno := 0
  nextValidatorShard := root
  minRefMCSeqno := 0xffffffff
  splitMerge := .none
  fees := ⟨0, []⟩
  created := ⟨0, []⟩

/-- The workchains present, the leaves and the accepted leaves while workchains are entered. -/
structure Activation where
  present : List (BitVec 32)
  staged : LeafMap
  accepted : LeafMap

/-- One workchain of `activateMasterShardWorkchains`. -/
def activateWorkchain (tlb : Codec) (now newBlockSeqno : UInt32) (state : Activation)
    (item : BitVec 32 × WorkchainInfo) : Except Fault Activation :=
  if !item.2.active || item.2.enabledSince > now then .ok state
  else if state.present.contains item.1 then .ok state
  else do
    let descriptor ← storeMasterShardDescriptor tlb .b (initialFields item.2 newBlockSeqno)
    let leaf ← decodeShardRegistryLeaf tlb item.1 root descriptor
    return {
      present := item.1 :: state.present
      staged := state.staged.insert ⟨item.1, root⟩ leaf
      accepted := state.accepted.insert ⟨item.1, root⟩ leaf }

def activateMasterShardWorkchains (tlb : Codec) (r : ShardRegistry) (workchains : WorkchainMap)
    (now newBlockSeqno : UInt32) : Except Fault ShardRegistry := do
  let state ← workchains.toList.foldlM (activateWorkchain tlb now newBlockSeqno)
    ⟨r.leaves.keys.map (·.workchain), r.leaves, r.accepted⟩
  let _ ← buildShardHashesDictionary state.staged
  buildShardFeesDictionary tlb state.accepted
  return ⟨state.staged, state.accepted⟩

/-! ## Moving an announcement on -/

namespace FutureSplitMerge

/-- `masterShardFSMMerge`. -/
def isMerge : FutureSplitMerge → Bool
  | merge _ _ => true
  | _ => false

/-- `masterShardFSMMergeMature`. -/
def mergeMature (state : FutureSplitMerge) (now : UInt32) : Bool :=
  match state with
  | merge utime _ => decide (utime ≤ now)
  | _ => false

/-- The times an announcement stands for, none for none. -/
def interval? : FutureSplitMerge → Option (UInt32 × UInt32)
  | none => Option.none
  | split utime interval => some (utime, interval)
  | merge utime interval => some (utime, interval)

end FutureSplitMerge

def masterShardFSMExpired (state : FutureSplitMerge) (now : UInt32) : Except Fault Bool :=
  match state.interval? with
  | none => .ok false
  | some (start, interval) =>
    let stop := start.toNat + interval.toNat
    if stop > 0xffffffff then .error .intervalOverflow else .ok (decide (stop ≤ now.toNat))

def masterShardFSMSchedule (now : UInt32) (workchain : WorkchainInfo) : Option (UInt32 × UInt32) :=
  let start := now.toNat + workchain.splitMergeDelay.toNat
  let stop := start + workchain.splitMergeInterval.toNat
  if start > 0xffffffff ∨ stop > 0xffffffff ∨ workchain.splitMergeInterval = 0 ∨
      workchain.splitMergeInterval < workchain.minSplitMergeInterval ∨
      stop > now.toNat + workchain.maxSplitMergeDelay.toNat then none
  else some (UInt32.ofNat start, workchain.splitMergeInterval)

/-- What becomes of the announcement a shard has. -/
inductive Clearing
  | kept
  | over
  | siblingGone
  deriving DecidableEq

/-- The first part of `updateMasterShardFSM`. -/
def clearing (fields : ShardDescriptorFields) (sibling : Option ShardDescriptorFields)
    (expired : Bool) : Clearing :=
  if fields.splitMerge ≠ .none ∧ (expired = true ∨ fields.beforeSplit = true) then .over
  else if fields.splitMerge.isMerge ∧ sibling.all (·.beforeSplit) then .siblingGone
  else .kept

/-- What a shard announces. -/
inductive Announcement
  | nothing
  | split (start interval : UInt32)
  | merge (start interval : UInt32)
  | due
  deriving DecidableEq

/-- The fields with the announcement in them. -/
def Announcement.enter (fields : ShardDescriptorFields) : Announcement → ShardDescriptorFields
  | nothing => fields
  | split start interval => { fields with splitMerge := .split start interval }
  | merge start interval => { fields with splitMerge := .merge start interval }
  | due => { fields with beforeMerge := true }

section Announce

variable (fields : ShardDescriptorFields) (sibling : Option ShardDescriptorFields)
  (workchain : WorkchainInfo) (depth : Nat) (now : UInt32)

/-- A split is announced. -/
def splitWanted : Bool :=
  fields.splitMerge == .none && (fields.wantSplit || decide (depth < workchain.minSplit)) &&
    decide (depth < workchain.maxSplit) && decide (depth < masterShardMaxSplitDepth)

/-- A merge is announced. -/
def mergeWanted : Bool :=
  fields.splitMerge == .none && decide (workchain.minSplit < depth) &&
    (fields.wantMerge || decide (workchain.maxSplit < depth)) &&
    sibling.any fun s => !s.beforeSplit && s.splitMerge == .none &&
      (s.wantMerge || decide (workchain.maxSplit < depth))

/-- The announced merge is entered. -/
def mergeDue : Bool :=
  fields.splitMerge.mergeMature now && decide (workchain.minSplit < depth) &&
    sibling.any fun s => !s.beforeSplit && s.splitMerge.mergeMature now &&
      (decide (workchain.maxSplit < depth) || (fields.wantMerge && s.wantMerge))

/-- The switch of `updateMasterShardFSM`. -/
def announce : Announcement :=
  let whenDue := if mergeDue fields sibling workchain depth now then .due else .nothing
  match masterShardFSMSchedule now workchain with
  | none => whenDue
  | some (start, interval) =>
    if splitWanted fields workchain depth then .split start interval
    else if mergeWanted fields sibling workchain depth then .merge start interval
    else whenDue

end Announce

section Update

variable (fields : ShardDescriptorFields) (sibling : Option ShardDescriptorFields)
  (workchain : Option WorkchainInfo) (depth : Nat) (now : UInt32)

/-- The fields once an announcement that is over, or lost its sibling, is cleared. -/
def clearedFields (expired : Bool) : ShardDescriptorFields :=
  if clearing fields sibling expired = .kept then { fields with beforeMerge := false }
  else { fields with beforeMerge := false, splitMerge := .none }

/-- Only a known workchain announces, and only while no split is under way. -/
def announcementOf (cleared : ShardDescriptorFields) : Announcement :=
  match workchain with
  | some workchain =>
    if !cleared.beforeSplit then announce cleared sibling workchain depth now else .nothing
  | none => .nothing

/-- `updateMasterShardFSM`: whether anything changed, and the fields. -/
def updateMasterShardFSM (updateCatchain : Bool) : Except Fault (Bool × ShardDescriptorFields) := do
  let expired ← masterShardFSMExpired fields.splitMerge now
  let cleared := clearedFields fields sibling expired
  let announced := announcementOf sibling workchain depth now cleared
  let next := announced.enter cleared
  let remarked := next.beforeMerge != fields.beforeMerge
  if updateCatchain || (remarked && fields.beforeMerge) then
    if next.nextCatchainSeqno = 0xffffffff then .error .catchainOverflow
    else .ok (true, { next with nextCatchainSeqno := next.nextCatchainSeqno + 1 })
  else
    .ok (clearing fields sibling expired != .kept || announced != .nothing || remarked, next)

end Update

/-- What one update of a shard does. -/
structure Moved (fields : ShardDescriptorFields) (sibling : Option ShardDescriptorFields)
    (workchain : Option WorkchainInfo) (depth : Nat) (now : UInt32) (updateCatchain : Bool)
    (expired : Bool) (fields' : ShardDescriptorFields) : Prop where
  expires : masterShardFSMExpired fields.splitMerge now = .ok expired
  announced : { fields' with nextCatchainSeqno := fields.nextCatchainSeqno } =
    (announcementOf sibling workchain depth now (clearedFields fields sibling expired)).enter
      (clearedFields fields sibling expired)
  catchain : fields'.nextCatchainSeqno =
    if updateCatchain || (fields.beforeMerge && !fields'.beforeMerge)
    then fields.nextCatchainSeqno + 1 else fields.nextCatchainSeqno
  bounded : (updateCatchain || (fields.beforeMerge && !fields'.beforeMerge)) = true →
    fields.nextCatchainSeqno ≠ 0xffffffff

theorem enter_nextCatchainSeqno (announced : Announcement) (fields : ShardDescriptorFields) :
    (announced.enter fields).nextCatchainSeqno = fields.nextCatchainSeqno := by
  cases announced <;> rfl

theorem clearedFields_nextCatchainSeqno (fields : ShardDescriptorFields)
    (sibling : Option ShardDescriptorFields) (expired : Bool) :
    (clearedFields fields sibling expired).nextCatchainSeqno = fields.nextCatchainSeqno := by
  unfold clearedFields
  split <;> rfl

variable {updateCatchain : Bool} {fields : ShardDescriptorFields} {now : UInt32}

/-- An update that reports no change made none. -/
theorem updateMasterShardFSM_spec {fields' : ShardDescriptorFields}
    {sibling : Option ShardDescriptorFields} {workchain : Option WorkchainInfo} {depth : Nat}
    {changed : Bool} (h : updateMasterShardFSM fields sibling workchain depth now updateCatchain =
      .ok (changed, fields')) :
    (∃ expired, Moved fields sibling workchain depth now updateCatchain expired fields') ∧
      (changed = false → fields' = fields) := by
  obtain ⟨expired, expires, h⟩ := bind_eq_ok.mp h
  have seqno := (enter_nextCatchainSeqno (announcementOf sibling workchain depth now
    (clearedFields fields sibling expired)) (clearedFields fields sibling expired)).trans
      (clearedFields_nextCatchainSeqno fields sibling expired)
  generalize entered : (announcementOf sibling workchain depth now
    (clearedFields fields sibling expired)).enter (clearedFields fields sibling expired) = next
    at h seqno
  have cleared : (next.beforeMerge != fields.beforeMerge && fields.beforeMerge) =
      (fields.beforeMerge && !next.beforeMerge) := by
    cases next.beforeMerge <;> cases fields.beforeMerge <;> rfl
  simp only [entered, cleared] at h
  split at h
  next bumped =>
    split at h
    · cases h
    next room =>
      cases h
      rw [seqno] at room
      refine ⟨⟨expired, expires, ?_, ?_, fun _ => room⟩, by simp⟩
      · rw [entered]
        simp [← seqno]
      · simp only [bumped, if_true, seqno]
  next steady =>
    cases h
    refine ⟨⟨expired, expires, ?_, ?_, fun bumped => absurd bumped steady⟩, ?_⟩
    · rw [entered]
      simp [← seqno]
    · rw [if_neg steady]
      exact seqno
    · intro unchanged
      simp only [Bool.or_eq_false_iff, bne_eq_false_iff_eq] at unchanged
      obtain ⟨⟨kept, nothing⟩, same⟩ := unchanged
      rw [nothing, Announcement.enter, clearedFields, if_pos kept] at entered
      rw [← entered] at same ⊢
      cases fields
      simp_all

/-! ## The pass -/

def directMasterShardSibling (shardID : BitVec 64) : Option (BitVec 64) := do
  let parent ← parent shardID
  let left ← child parent true
  let right ← child parent false
  if shardID = left then some right
  else if shardID = right then some left
  else none

/-- The fields of the direct sibling, if it is a leaf. -/
def siblingFields (leaves : LeafMap) (key : ShardRegistryKey) :
    Except Fault (Option ShardDescriptorFields) :=
  if prefixLength key.shard > 0 then
    match directMasterShardSibling key.shard with
    | none => .error (.sibling key)
    | some siblingID =>
      .ok (leaves[(⟨key.workchain, siblingID⟩ : ShardRegistryKey)]?.map (·.fields))
  else .ok none

/-- One leaf of `postprocessMasterShardRegistry`. -/
def postprocessLeaf (tlb : Codec) (leaves : LeafMap) (workchains : WorkchainMap) (now : UInt32)
    (updateCatchain : Bool) (staged : LeafMap) (entry : ShardRegistryKey × ShardRegistryLeaf) :
    Except Fault LeafMap := do
  let (key, item) := entry
  require (key.shard != 0#64) (.depth key)
  let sibling ← siblingFields leaves key
  let (changed, fields) ← updateMasterShardFSM item.fields sibling workchains[key.workchain]?
    (prefixLength key.shard) now updateCatchain
  if !changed then return staged
  else
    let fields := { fields with nextCCUpdated := false }
    let descriptor ← storeMasterShardDescriptor tlb .a fields
    return staged.insert key { item with descriptor := descriptor, fields := fields }

def postprocessMasterShardRegistry (tlb : Codec) (r : ShardRegistry) (workchains : WorkchainMap)
    (now : UInt32) (updateCatchain : Bool) : Except Fault ShardRegistry := do
  let staged ← r.leaves.toList.foldlM
    (postprocessLeaf tlb r.leaves workchains now updateCatchain) r.leaves
  return { r with leaves := staged }

/-! ## What the pass does -/

section Pass

variable {tlb : Codec} {workchains : WorkchainMap}

theorem storeMasterShardDescriptor_eq_ok {tag : DescriptorTag} {cell : Cell} :
    storeMasterShardDescriptor tlb tag fields = .ok cell ↔ tlb.encode tag fields = some cell := by
  unfold storeMasterShardDescriptor
  cases tlb.encode tag fields <;> simp

/-- A loop over the entries of a map that rewrites each entry under its own key. -/
theorem rewriteEntries {f : LeafMap → ShardRegistryKey × ShardRegistryLeaf → Except Fault LeafMap}
    {R : ShardRegistryKey → ShardRegistryLeaf → ShardRegistryLeaf → Prop}
    (step : ∀ {staged staged' : LeafMap} {k : ShardRegistryKey} {leaf : ShardRegistryLeaf},
      staged[k]? = some leaf → f staged (k, leaf) = .ok staged' →
      (∃ leaf', staged'[k]? = some leaf' ∧ R k leaf leaf') ∧
        ∀ k' : ShardRegistryKey, k' ≠ k → staged'[k']? = staged[k']?)
    {items : List (ShardRegistryKey × ShardRegistryLeaf)} {staged staged' : LeafMap}
    (nodup : (items.map Prod.fst).Nodup) (entries : ∀ item ∈ items, staged[item.1]? = some item.2)
    (ok : items.foldlM f staged = .ok staged') :
    (∀ item ∈ items, ∃ leaf', staged'[item.1]? = some leaf' ∧ R item.1 item.2 leaf') ∧
      ∀ k : ShardRegistryKey, k ∉ items.map Prod.fst → staged'[k]? = staged[k]? := by
  induction items generalizing staged with
  | nil =>
    cases ok
    simp
  | cons item items ih =>
    obtain ⟨k, leaf⟩ := item
    rw [List.map_cons, List.nodup_cons] at nodup
    rw [List.foldlM_cons, bind_eq_ok] at ok
    obtain ⟨middle, first, rest⟩ := ok
    obtain ⟨⟨leaf', entered, rewritten⟩, others⟩ := step (entries (k, leaf) (by simp)) first
    obtain ⟨done, kept⟩ := ih nodup.2 (by
      intro item mem
      rw [others]
      · exact entries item (by simp [mem])
      · intro same
        apply nodup.1
        rw [← same]
        exact List.mem_map_of_mem mem) rest
    refine ⟨?_, ?_⟩
    · intro item mem
      rcases List.mem_cons.mp mem with rfl | later
      · exact ⟨leaf', by rw [kept k nodup.1]; exact entered, rewritten⟩
      · exact done item later
    · intro k' out
      simp only [List.map_cons, List.mem_cons, not_or] at out
      rw [kept k' out.2, others k' out.1]

/-- How the pass rewrites one leaf. -/
structure Rewritten (tlb : Codec) (leaves : LeafMap) (workchains : WorkchainMap) (now : UInt32)
    (updateCatchain : Bool) (key : ShardRegistryKey) (leaf leaf' : ShardRegistryLeaf) : Prop where
  tagged : key.shard ≠ 0#64
  moved : ∃ sibling expired fields', siblingFields leaves key = .ok sibling ∧
    Moved leaf.fields sibling workchains[key.workchain]? (prefixLength key.shard) now updateCatchain
      expired fields' ∧
    ((leaf' = leaf ∧ fields' = leaf.fields) ∨
      ∃ cell, tlb.encode .a { fields' with nextCCUpdated := false } = some cell ∧
        leaf' = { leaf with descriptor := cell, fields := { fields' with nextCCUpdated := false } })

theorem postprocessLeaf_spec {leaves staged staged' : LeafMap}
    {key : ShardRegistryKey} {leaf : ShardRegistryLeaf} (entry : staged[key]? = some leaf)
    (h : postprocessLeaf tlb leaves workchains now updateCatchain staged (key, leaf) =
      .ok staged') :
    (∃ leaf', staged'[key]? = some leaf' ∧
      Rewritten tlb leaves workchains now updateCatchain key leaf leaf') ∧
      ∀ k' : ShardRegistryKey, k' ≠ key → staged'[k']? = staged[k']? := by
  unfold postprocessLeaf at h
  simp only [bind_eq_ok, require_eq_ok, bne_iff_ne] at h
  obtain ⟨_, tagged, sibling, read, ⟨changed, fields'⟩, updated, h⟩ := h
  obtain ⟨⟨expired, moved⟩, unchanged⟩ := updateMasterShardFSM_spec updated
  cases changed with
  | false =>
    cases h
    exact ⟨⟨leaf, entry, tagged, sibling, expired, fields', read, moved,
      .inl ⟨rfl, unchanged rfl⟩⟩, fun _ _ => rfl⟩
  | true =>
    simp only [Bool.not_true, Bool.false_eq_true, if_false, bind_eq_ok,
      storeMasterShardDescriptor_eq_ok] at h
    obtain ⟨cell, encoded, same⟩ := h
    cases same
    refine ⟨⟨_, ?_, tagged, sibling, expired, fields', read, moved,
      .inr ⟨cell, encoded, rfl⟩⟩, ?_⟩
    · simp
    · intro k' other
      rw [Std.ExtTreeMap.getElem?_insert, if_neg]
      simpa using Ne.symm other

/-- The pass keeps the keys and rewrites every leaf from the leaves before it. -/
theorem postprocess_spec {r r' : ShardRegistry}
    (h : postprocessMasterShardRegistry tlb r workchains now updateCatchain = .ok r') :
    (∀ {k : ShardRegistryKey} {leaf : ShardRegistryLeaf}, r.leaves[k]? = some leaf →
      ∃ leaf', r'.leaves[k]? = some leaf' ∧
        Rewritten tlb r.leaves workchains now updateCatchain k leaf leaf') ∧
    ∀ {k : ShardRegistryKey} {leaf' : ShardRegistryLeaf}, r'.leaves[k]? = some leaf' →
      ∃ leaf, r.leaves[k]? = some leaf ∧
        Rewritten tlb r.leaves workchains now updateCatchain k leaf leaf' := by
  obtain ⟨staged, loop, same⟩ := bind_eq_ok.mp h
  cases same
  obtain ⟨done, kept⟩ := rewriteEntries (fun entry ok => postprocessLeaf_spec entry ok)
    (nodup_toList_fst r.leaves)
    (fun item mem => Std.ExtTreeMap.mem_toList_iff_getElem?_eq_some.mp mem) loop
  have forward {k : ShardRegistryKey} {leaf : ShardRegistryLeaf}
      (found : r.leaves[k]? = some leaf) :=
    done (k, leaf) (Std.ExtTreeMap.mem_toList_iff_getElem?_eq_some.mpr found)
  refine ⟨forward, ?_⟩
  intro k leaf' found
  cases before : r.leaves[k]? with
  | none =>
    rw [kept, before] at found
    · cases found
    · intro mem
      obtain ⟨⟨_, leaf⟩, inside, rfl⟩ := List.mem_map.mp mem
      rw [Std.ExtTreeMap.mem_toList_iff_getElem?_eq_some.mp inside] at before
      cases before
  | some leaf =>
    obtain ⟨other, after, rewritten⟩ := forward before
    cases found.symm.trans after
    exact ⟨leaf, rfl, rewritten⟩

end Pass

end Gton.Collator
