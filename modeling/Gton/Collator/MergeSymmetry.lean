import Gton.Collator.MasterBlock
import Gton.Lib.Sorted

/-!
# Siblings that merge

A merge is announced by each of two siblings on its own, from what it sees of the other before
the pass. The two stay in step: as long as no split announcement runs out beside a sibling that is
ready to merge, a merge is always announced by both, for the same time.
-/

namespace Gton.Collator

open Gton.Shard
open Gton.Lib.Bits
open Gton.Lib.Fallible

/-! ## Direct siblings -/

/-- The key of the other half of a shard's parent. -/
def directSibling (key : ShardRegistryKey) : Option ShardRegistryKey :=
  (directMasterShardSibling key.shard).map fun shardID => ⟨key.workchain, shardID⟩

variable {x : BitVec 64} {k k' : ShardRegistryKey} {leaves : LeafMap}
  {seen : Option ShardDescriptorFields} {leaf : ShardRegistryLeaf} {shardHashes : ShardHashes}

theorem directMasterShardSibling_eq_some {y : BitVec 64} :
    directMasterShardSibling x = some y ↔ x ≠ 0#64 ∧ trailingZeros x < 63 ∧ y = sibling x := by
  unfold directMasterShardSibling
  by_cases inner : x ≠ 0#64 ∧ trailingZeros x < 63
  · obtain ⟨ne, lt⟩ := inner
    have top : trailingZeros x + 1 < 64 := by omega
    have mark : trailingZeros (marked (trailingZeros x + 1) x) = trailingZeros x + 1 :=
      trailingZeros_marked top
    have tagged : marked (trailingZeros x + 1) x ≠ 0#64 := marked_ne_zero top
    have children (left : Bool) : child (marked (trailingZeros x + 1) x) left =
        some (if x.getLsbD (trailingZeros x + 1) = !left then x else sibling x) := by
      rw [child_eq_some, getChild_parent ne lt, mark]
      exact ⟨tagged, by omega, rfl⟩
    have apart := sibling_ne lt
    simp only [parent_eq ne lt, children, Option.bind_eq_bind, Option.bind_some]
    cases x.getLsbD (trailingZeros x + 1) <;> simp [ne, lt, apart.symm, eq_comm]
  · have orphan : parent x = none := by
      unfold parent
      by_cases zero : x = 0#64
      · rw [if_pos zero]
      · have whole : prefixLength x = 0 := by
          have high : ¬ trailingZeros x < 63 := fun lt => inner ⟨zero, lt⟩
          unfold prefixLength
          omega
        rw [if_neg zero, if_pos whole]
    rw [orphan]
    constructor
    · intro some_
      cases some_
    · rintro ⟨ne, lt, -⟩
      exact absurd ⟨ne, lt⟩ inner

theorem directSibling_eq_some :
    directSibling k = some k' ↔
      k'.workchain = k.workchain ∧ k.shard ≠ 0#64 ∧ trailingZeros k.shard < 63 ∧
        k'.shard = sibling k.shard := by
  unfold directSibling
  rw [Option.map_eq_some_iff]
  constructor
  · rintro ⟨y, found, rfl⟩
    exact ⟨rfl, directMasterShardSibling_eq_some.mp found⟩
  · rintro ⟨workchain, found⟩
    refine ⟨k'.shard, directMasterShardSibling_eq_some.mpr found, ?_⟩
    rw [← workchain]

section

variable (h : directSibling k = some k')
include h

theorem directSibling_symm : directSibling k' = some k := by
  obtain ⟨workchain, ne, lt, shard⟩ := directSibling_eq_some.mp h
  rw [directSibling_eq_some, shard, trailingZeros_sibling ne lt, sibling_sibling ne lt]
  exact ⟨workchain.symm, sibling_ne_zero ne lt, lt, rfl⟩

theorem directSibling_workchain : k'.workchain = k.workchain := (directSibling_eq_some.mp h).1

theorem directSibling_prefixLength : prefixLength k'.shard = prefixLength k.shard := by
  obtain ⟨-, ne, lt, shard⟩ := directSibling_eq_some.mp h
  unfold prefixLength
  rw [shard, trailingZeros_sibling ne lt]

theorem directSibling_ne_root : k'.shard ≠ root := by
  obtain ⟨-, ne, lt, shard⟩ := directSibling_eq_some.mp h
  intro whole
  have zeros := trailingZeros_sibling ne lt
  rw [← shard, whole, trailingZeros_root] at zeros
  omega

end

theorem siblingFields_eq_ok (h : siblingFields leaves k = .ok seen) :
    seen = (directSibling k).bind fun k' => leaves[k']?.map (·.fields) := by
  unfold siblingFields at h
  unfold directSibling
  split at h
  · cases found : directMasterShardSibling k.shard with
    | none =>
      rw [found] at h
      cases h
    | some y =>
      rw [found] at h
      cases h
      rfl
  next whole =>
    cases h
    cases found : directMasterShardSibling k.shard with
    | none => rfl
    | some y =>
      obtain ⟨-, lt, -⟩ := directMasterShardSibling_eq_some.mp found
      refine absurd ?_ whole
      unfold prefixLength
      omega

/-! ## One shard -/

section Shard

variable {fields fields' : ShardDescriptorFields} {seen : Option ShardDescriptorFields}
  {workchain : Option WorkchainInfo} {depth : Nat} {now : UInt32} {updateCatchain expired : Bool}
  {start interval : UInt32}

theorem clearedFields_beforeSplit :
    (clearedFields fields seen expired).beforeSplit = fields.beforeSplit := by
  unfold clearedFields
  split <;> rfl

theorem clearedFields_wantSplit :
    (clearedFields fields seen expired).wantSplit = fields.wantSplit := by
  unfold clearedFields
  split <;> rfl

theorem clearedFields_wantMerge :
    (clearedFields fields seen expired).wantMerge = fields.wantMerge := by
  unfold clearedFields
  split <;> rfl

theorem clearedFields_beforeMerge : (clearedFields fields seen expired).beforeMerge = false := by
  unfold clearedFields
  split <;> rfl

theorem clearedFields_splitMerge : (clearedFields fields seen expired).splitMerge =
    if clearing fields seen expired = .kept then fields.splitMerge else .none := by
  unfold clearedFields
  split <;> rfl

theorem clearing_eq_kept (announced : fields.splitMerge ≠ .none) :
    clearing fields seen expired = .kept ↔
      expired = false ∧ fields.beforeSplit = false ∧
        ¬ (fields.splitMerge.isMerge = true ∧ seen.all (·.beforeSplit) = true) := by
  unfold clearing
  cases expired <;> cases fields.beforeSplit <;> simp [announced]

theorem announcementOf_iff {a : Announcement} (some_ : a ≠ .nothing) :
    announcementOf seen workchain depth now fields = a ↔
      fields.beforeSplit = false ∧ ∃ w, workchain = some w ∧
        announce fields seen w depth now = a := by
  unfold announcementOf
  cases workchain <;> cases fields.beforeSplit <;> simp [some_.symm]

/-- A merge is announced exactly when there is nothing better to announce. -/
theorem announcementOf_eq_merge :
    announcementOf seen workchain depth now fields = .merge start interval ↔
      fields.beforeSplit = false ∧ ∃ w, workchain = some w ∧
        masterShardFSMSchedule now w = some (start, interval) ∧
        splitWanted fields w depth = false ∧ mergeWanted fields seen w depth = true := by
  rw [announcementOf_iff (by simp)]
  refine and_congr_right fun _ => exists_congr fun w => and_congr_right fun _ => ?_
  unfold announce
  cases masterShardFSMSchedule now w <;> cases splitWanted fields w depth <;>
    cases mergeWanted fields seen w depth <;> cases mergeDue fields seen w depth now <;>
      simp [Prod.ext_iff]

theorem announcementOf_eq_split
    (h : announcementOf seen workchain depth now fields = .split start interval) :
    fields.splitMerge = .none := by
  obtain ⟨-, w, -, made⟩ := (announcementOf_iff (by simp)).mp h
  unfold announce at made
  have wanted : splitWanted fields w depth = true := by
    cases schedule : masterShardFSMSchedule now w <;>
      cases splits : splitWanted fields w depth <;>
        cases merges : mergeWanted fields seen w depth <;>
          cases dues : mergeDue fields seen w depth now <;> simp_all
  simp only [splitWanted, Bool.and_eq_true, beq_iff_eq] at wanted
  exact wanted.1.1.1

theorem announcementOf_eq_due :
    announcementOf seen workchain depth now fields = .due ↔
      fields.beforeSplit = false ∧ ∃ w, workchain = some w ∧
        mergeDue fields seen w depth now = true := by
  rw [announcementOf_iff (by simp)]
  refine and_congr_right fun _ => exists_congr fun w => and_congr_right fun _ => ?_
  unfold announce
  cases due : mergeDue fields seen w depth now with
  | false =>
    cases masterShardFSMSchedule now w <;> cases splitWanted fields w depth <;>
      cases mergeWanted fields seen w depth <;> simp
  | true =>
    have announced : (fields.splitMerge == .none) = false := by
      unfold mergeDue at due
      cases which : fields.splitMerge <;> simp [which, FutureSplitMerge.mergeMature] at due ⊢
    have noSplit : splitWanted fields w depth = false := by simp [splitWanted, announced]
    have noMerge : mergeWanted fields seen w depth = false := by simp [mergeWanted, announced]
    cases masterShardFSMSchedule now w <;> simp [noSplit, noMerge]

variable (h : Moved fields seen workchain depth now updateCatchain expired fields')
include h

theorem Moved.beforeSplit_eq : fields'.beforeSplit = fields.beforeSplit := by
  have same := congrArg ShardDescriptorFields.beforeSplit h.announced
  rw [← @clearedFields_beforeSplit fields seen expired]
  refine Eq.trans same ?_
  cases announcementOf seen workchain depth now (clearedFields fields seen expired) <;> rfl

theorem Moved.merge_iff : fields'.splitMerge = .merge start interval ↔
    (fields.splitMerge = .merge start interval ∧ clearing fields seen expired = .kept) ∨
      announcementOf seen workchain depth now (clearedFields fields seen expired) =
        .merge start interval := by
  have entered := congrArg ShardDescriptorFields.splitMerge h.announced
  have cleared : (clearedFields fields seen expired).splitMerge = .merge start interval ↔
      fields.splitMerge = .merge start interval ∧ clearing fields seen expired = .kept := by
    rw [clearedFields_splitMerge]
    split
    next kept =>
      simp [kept]
    next gone =>
      simp [gone]
  rw [← cleared]
  rw [entered]
  cases made : announcementOf seen workchain depth now (clearedFields fields seen expired) with
  | nothing | due => simp [Announcement.enter]
  | split => simp [Announcement.enter, announcementOf_eq_split made]
  | merge s i =>
    obtain ⟨-, w, -, -, -, wanted⟩ := announcementOf_eq_merge.mp made
    have none_ : (clearedFields fields seen expired).splitMerge = .none := by
      unfold mergeWanted at wanted
      simp only [Bool.and_eq_true, beq_iff_eq] at wanted
      exact wanted.1.1.1
    simp [Announcement.enter, none_]

theorem Moved.beforeMerge_iff : fields'.beforeMerge = true ↔
    announcementOf seen workchain depth now (clearedFields fields seen expired) = .due := by
  have entered := congrArg ShardDescriptorFields.beforeMerge h.announced
  rw [entered]
  cases announcementOf seen workchain depth now (clearedFields fields seen expired) <;>
    simp [Announcement.enter, clearedFields_beforeMerge]

theorem Moved.marked (marked : fields.beforeSplit = true) : fields'.splitMerge.isMerge = false := by
  cases after : fields'.splitMerge with
  | none | split => rfl
  | merge start interval =>
    rcases h.merge_iff.mp after with ⟨announced, kept⟩ | made
    · rw [clearing_eq_kept (by simp [announced])] at kept
      simp [marked] at kept
    · obtain ⟨steady, -⟩ := announcementOf_eq_merge.mp made
      rw [clearedFields_beforeSplit, marked] at steady
      cases steady

end Shard

/-! ## Two shards -/

/-- A split announcement that runs out before a block of the shard used it. -/
def SplitLapses (fields : ShardDescriptorFields) (now : UInt32) : Prop :=
  ∃ start interval, fields.splitMerge = .split start interval ∧
    start.toNat + interval.toNat ≤ now.toNat ∧ fields.beforeSplit = false

/-- A shard that would merge, or has to. -/
def MergeWilling (fields : ShardDescriptorFields) (workchain : WorkchainInfo)
    (depth : Nat) : Prop :=
  fields.wantMerge = true ∨ workchain.maxSplit < depth

/-- A shard `f` without an announcement would announce a merge beside `g`. -/
structure MergeOpen (f g : ShardDescriptorFields) (workchain : WorkchainInfo) (depth : Nat)
    (now : UInt32) : Prop where
  schedulable : (masterShardFSMSchedule now workchain).isSome = true
  deep : workchain.minSplit < depth
  willing : MergeWilling f workchain depth
  unmarked : g.beforeSplit = false
  unannounced : g.splitMerge = .none
  siblingWilling : MergeWilling g workchain depth

section Pair

variable {f g f' g' : ShardDescriptorFields} {workchain : Option WorkchainInfo} {depth : Nat}
  {now : UInt32} {updateCatchain ef eg : Bool} {start interval : UInt32}

/-- What is known of two siblings before a pass. -/
structure Matched (f g : ShardDescriptorFields) : Prop where
  merges : ∀ {start interval}, f.splitMerge = .merge start interval ↔
    g.splitMerge = .merge start interval
  steady : f.beforeSplit = true → f.splitMerge.isMerge = false
  steady' : g.beforeSplit = true → g.splitMerge.isMerge = false
  intent : ¬ (g.wantSplit = true ∧ g.wantMerge = true)

theorem Matched.kept (m : Matched f g) (hf : f.splitMerge = .merge start interval)
    (ef_ : masterShardFSMExpired f.splitMerge now = .ok ef)
    (eg_ : masterShardFSMExpired g.splitMerge now = .ok eg)
    (kept : clearing f (some g) ef = .kept) :
    g.splitMerge = .merge start interval ∧ clearing g (some f) eg = .kept := by
  have hg := m.merges.mp hf
  have same : eg = ef := by
    rw [hf] at ef_
    rw [hg, ef_] at eg_
    cases eg_
    rfl
  rw [clearing_eq_kept (by simp [hf])] at kept
  obtain ⟨live, steady, -⟩ := kept
  have steady' : g.beforeSplit = false := by
    cases marked : g.beforeSplit with
    | false => rfl
    | true =>
      have no := m.steady' marked
      rw [hg] at no
      cases no
  refine ⟨hg, (clearing_eq_kept (by simp [hg])).mpr ⟨same.trans live, steady', ?_⟩⟩
  simp [steady]

section

variable (m : Matched f g) (free : g.splitMerge = .none)
  (ef_ : masterShardFSMExpired f.splitMerge now = .ok ef)
include m free ef_

/-- A shard whose sibling is free to merge, and that announces a merge, had announced nothing. -/
theorem Matched.unannounced (steady : f.beforeSplit = false)
    (cleared : (clearedFields f (some g) ef).splitMerge = .none) (live : ¬ SplitLapses f now) :
    f.splitMerge = .none := by
  cases before : f.splitMerge with
  | none => rfl
  | merge u i =>
    rw [m.merges.mp before] at free
    cases free
  | split u i =>
    exfalso
    rw [clearedFields_splitMerge, before] at cleared
    split at cleared
    · cases cleared
    next gone =>
      apply live
      rw [clearing_eq_kept (by simp [before]), before] at gone
      have expired : ef = true := by simpa [FutureSplitMerge.isMerge, steady] using gone
      rw [before, expired] at ef_
      simp only [masterShardFSMExpired, FutureSplitMerge.interval?] at ef_
      split at ef_
      · cases ef_
      · simp only [Except.ok.injEq, decide_eq_true_eq] at ef_
        exact ⟨u, i, before, ef_, steady⟩

omit free in
/-- Two siblings announce a merge together. -/
theorem Matched.announces
    (live : SplitLapses f now → ∀ {w}, workchain = some w → ¬ MergeOpen f g w depth now)
    (made : announcementOf (some g) workchain depth now (clearedFields f (some g) ef) =
      .merge start interval) :
    announcementOf (some f) workchain depth now (clearedFields g (some f) eg) =
      .merge start interval := by
  obtain ⟨steady, w, known, schedule, -, wanted⟩ := announcementOf_eq_merge.mp made
  rw [clearedFields_beforeSplit] at steady
  unfold mergeWanted at wanted
  simp only [Option.any_some, Bool.and_eq_true, Bool.or_eq_true, beq_iff_eq, decide_eq_true_eq,
    Bool.not_eq_true', clearedFields_wantMerge] at wanted
  obtain ⟨⟨⟨cleared, deep⟩, willing⟩, ⟨steady', free⟩, willing'⟩ := wanted
  have before : f.splitMerge = .none := by
    apply m.unannounced free ef_ steady cleared
    intro lapses
    exact live lapses known ⟨by rw [schedule]; rfl, deep, willing, steady', free, willing'⟩
  have cleared' : (clearedFields g (some f) eg).splitMerge = .none := by
    rw [clearedFields_splitMerge, free]
    exact ite_self _
  refine announcementOf_eq_merge.mpr
    ⟨clearedFields_beforeSplit.trans steady', w, known, schedule, ?_, ?_⟩
  · apply Bool.eq_false_iff.mpr
    intro wanted
    unfold splitWanted at wanted
    simp only [Bool.and_eq_true, Bool.or_eq_true, decide_eq_true_eq, clearedFields_wantSplit]
      at wanted
    obtain ⟨⟨⟨-, split⟩, shallow⟩, -⟩ := wanted
    apply m.intent
    constructor
    · rcases split with asked | few
      · exact asked
      · omega
    · rcases willing' with asked | many
      · exact asked
      · omega
  · unfold mergeWanted
    simp [cleared', deep, clearedFields_wantMerge, willing, willing', steady, before]

omit free in
theorem Matched.enters (eg_ : masterShardFSMExpired g.splitMerge now = .ok eg)
    (due : announcementOf (some g) workchain depth now (clearedFields f (some g) ef) = .due) :
    announcementOf (some f) workchain depth now (clearedFields g (some f) eg) = .due := by
  obtain ⟨steady, w, known, ready⟩ := announcementOf_eq_due.mp due
  rw [clearedFields_beforeSplit] at steady
  unfold mergeDue at ready
  simp only [Option.any_some, Bool.and_eq_true, Bool.or_eq_true, decide_eq_true_eq,
    Bool.not_eq_true', clearedFields_wantMerge] at ready
  obtain ⟨⟨mature, deep⟩, ⟨steady', mature'⟩, willing⟩ := ready
  rw [clearedFields_splitMerge] at mature
  split at mature
  next kept =>
    cases before : f.splitMerge with
    | none | split => simp [before, FutureSplitMerge.mergeMature] at mature
    | merge u i =>
      obtain ⟨after, kept'⟩ := m.kept before ef_ eg_ kept
      refine announcementOf_eq_due.mpr ⟨clearedFields_beforeSplit.trans steady', w, known, ?_⟩
      unfold mergeDue
      have cleared' : (clearedFields g (some f) eg).splitMerge = g.splitMerge := by
        rw [clearedFields_splitMerge, if_pos kept']
      simp only [cleared', clearedFields_wantMerge, Option.any_some, Bool.and_eq_true,
        Bool.or_eq_true, decide_eq_true_eq, Bool.not_eq_true']
      exact ⟨⟨mature', deep⟩, ⟨steady, mature⟩, willing.imp_right And.symm⟩
  · simp [FutureSplitMerge.mergeMature] at mature

end

end Pair

/-! ## The registry -/

/-- What holds of a registry between any two steps: a merge is announced by both siblings or by
none, and not by a shard that is about to split. -/
structure Symmetric (leaves : LeafMap) : Prop where
  paired : ∀ {k : ShardRegistryKey} {leaf : ShardRegistryLeaf} {start interval : UInt32},
    leaves[k]? = some leaf → leaf.fields.splitMerge = .merge start interval →
    ∃ k' leaf', directSibling k = some k' ∧ leaves[k']? = some leaf' ∧
      leaf'.fields.splitMerge = .merge start interval
  steady : ∀ {k : ShardRegistryKey} {leaf : ShardRegistryLeaf}, leaves[k]? = some leaf →
    leaf.fields.beforeSplit = true → leaf.fields.splitMerge.isMerge = false

section Registry

variable {tlb : Codec} {r r' : ShardRegistry} {item : DecodedShardTop} {tops : List ShardTop}
  {ltLimit : UInt64} {decoded : List DecodedShardTop} {transitions : List ShardRegistryTransition}
  {start interval : UInt32}

theorem symmetric_of_quiet (quiet : ∀ {k : ShardRegistryKey}
    {leaf : ShardRegistryLeaf}, leaves[k]? = some leaf → leaf.fields.splitMerge = .none) :
    Symmetric leaves where
  paired := by
    intro k leaf start interval found announced
    rw [quiet found] at announced
    cases announced
  steady := by
    intro k leaf found _
    rw [quiet found]
    rfl

theorem neutral_leaf (codec : tlb.RoundTrips) {top : ShardTop}
    (neutral : top.Neutral tlb) (spec : DecodeShardTop tlb top item) :
    item.leaf.fields.splitMerge = .none := by
  obtain ⟨fields, seqno, encoded⟩ := neutral
  obtain ⟨decoded, parsed, same⟩ := decodeShardRegistryLeaf_eq_ok.mp spec.decoded
  obtain ⟨-, ⟨tag, read⟩, -⟩ := parseShardDescriptorFields_eq_ok.mp parsed
  rw [codec.decode_encode encoded] at read
  cases read
  rw [same]
  rfl

theorem inherit_splitMerge {output output' : ShardRegistryLeaf}
    {predecessor : ShardDescriptorFields} (neutral : output.fields.splitMerge = .none)
    (ok : inheritShardRegistryFSM tlb output predecessor = .ok output') :
    output'.fields.splitMerge = predecessor.splitMerge ∧
      output'.fields.beforeSplit = output.fields.beforeSplit := by
  unfold inheritShardRegistryFSM at ok
  split at ok
  next quiet =>
    cases ok
    exact ⟨neutral.trans quiet.symm, rfl⟩
  · simp only [bind_eq_ok] at ok
    obtain ⟨tag, -, descriptor, -, same⟩ := ok
    cases same
    exact ⟨rfl, rfl⟩

/-- A shard with a merge announcement after a batch had it before, and at most its own next block
took the place of the old leaf. -/
theorem Applied.merge_before (codec : tlb.RoundTrips)
    (applied : Applied tlb r r' tops ltLimit decoded transitions)
    (neutral : ∀ top ∈ tops, top.Neutral tlb) (found : r'.leaves[k]? = some leaf)
    (announced : leaf.fields.splitMerge = .merge start interval) :
    ∃ old, r.leaves[k]? = some old ∧ old.fields.splitMerge = .merge start interval ∧
      (leaf.fields.beforeSplit = true → old.fields.beforeSplit = true) ∧
      ∀ t ∈ transitions, k ∈ t.consumes → t.consumes = [k] := by
  have tip {item : DecodedShardTop} (mem : item ∈ decoded) :
      item.leaf.fields.splitMerge = .none := by
    obtain ⟨top, inside, spec⟩ := applied.tops item mem
    exact neutral_leaf codec (neutral top inside) spec
  rcases staged_sound applied.staged found with ⟨t, mem, output, key⟩ | ⟨old, unconsumed⟩
  · cases applied.transits t mem with
    | @linear item old result inside _ _ there _ _ marked inherits =>
      obtain rfl := List.mem_singleton.mp output
      rw [inherit_block inherits] at key
      obtain ⟨same, mark⟩ := inherit_splitMerge (tip inside) inherits
      have here : item.target = k := key
      rw [here] at there mem
      refine ⟨old, there, same.symm.trans announced, ?_, ?_⟩
      · intro marks
        obtain ⟨u, i, split, -⟩ := marked (mark.symm.trans marks)
        rw [same, split] at announced
        cases announced
      · intro t' mem' consumed
        rw [← Lib.Sorted.eq_of_mem_owned applied.once mem mem' (by simp) consumed]
    | split inside₁ inside₂ =>
      rw [List.mem_pair] at output
      rcases output with rfl | rfl
      · rw [tip inside₁] at announced
        cases announced
      · rw [tip inside₂] at announced
        cases announced
    | merge inside =>
      obtain rfl := List.mem_singleton.mp output
      rw [tip inside] at announced
      cases announced
  · exact ⟨leaf, old, announced, id, fun t mem consumed => absurd consumed (unconsumed t mem)⟩

theorem directSibling_child {side : Bool}
    (h : directSibling k' = some k) (half : child x side = some k'.shard) :
    child x (!side) = some k.shard := by
  obtain ⟨-, ne, lt, shard⟩ := directSibling_eq_some.mp h
  obtain ⟨tagged, room, here⟩ := child_eq_some.mp half
  have top : trailingZeros k'.shard + 1 < 64 := by omega
  have mark : trailingZeros (marked (trailingZeros k'.shard + 1) k'.shard) =
      trailingZeros k'.shard + 1 := trailingZeros_marked top
  have inner : marked (trailingZeros k'.shard + 1) k'.shard ≠ 0#64 ∧
      0 < trailingZeros (marked (trailingZeros k'.shard + 1) k'.shard) :=
    ⟨marked_ne_zero top, by omega⟩
  have own := getChild_parent ne lt (!k'.shard.getLsbD (trailingZeros k'.shard + 1))
  have other := getChild_parent ne lt (k'.shard.getLsbD (trailingZeros k'.shard + 1))
  rw [if_pos (by simp)] at own
  rw [if_neg (by simp)] at other
  obtain ⟨same, which⟩ := getChild_inj inner ⟨tagged, room⟩ (own.trans here)
  rw [child_eq_some, shard, ← other, ← same, ← which, Bool.not_not]
  exact ⟨inner.1, inner.2, rfl⟩

theorem merge_consumes_both (sound : item.Sound)
    (kind : item.kind = .merge) (h : directSibling k' = some k)
    (consumed : k' ∈ item.transition.consumes) :
    k ∈ item.transition.consumes ∧ item.transition.consumes.length = 2 := by
  obtain ⟨left, right, hl, hr, keys⟩ := sound.merge kind
  have workchain := directSibling_workchain h
  change k ∈ item.predecessor.map shardTopKey ∧ (item.predecessor.map shardTopKey).length = 2
  refine ⟨keys.mem_iff.mpr ?_, keys.length_eq⟩
  have half := keys.mem_iff.mp consumed
  rw [List.mem_pair] at half ⊢
  rcases half with rfl | rfl
  · have other := directSibling_child h hl
    rw [Bool.not_true, hr, Option.some.injEq] at other
    right
    rw [other, ← workchain]
  · have other := directSibling_child h hr
    rw [Bool.not_false, hl, Option.some.injEq] at other
    left
    rw [other, ← workchain]

theorem Symmetric.apply (codec : tlb.RoundTrips) (h : Symmetric r.leaves)
    (neutral : ∀ top ∈ tops, top.Neutral tlb) (ok : r.apply tlb tops ltLimit = .ok r') :
    Symmetric r'.leaves := by
  obtain ⟨decoded, transitions, applied⟩ := ShardRegistry.apply_spec ok
  refine ⟨?_, ?_⟩
  · intro k leaf start interval found announced
    obtain ⟨old, before, same, -, own⟩ := applied.merge_before codec neutral found announced
    obtain ⟨k', old', beside, before', same'⟩ := h.paired before same
    refine ⟨k', ?_⟩
    by_cases consumed : ∃ t ∈ transitions, k' ∈ t.consumes
    · obtain ⟨t, mem, here⟩ := consumed
      cases applied.transits t mem with
      | @linear item registered output inside _ _ there _ _ _ inherits =>
        obtain rfl := List.mem_singleton.mp here
        obtain ⟨top, tops, spec⟩ := applied.tops item inside
        obtain ⟨kept, -⟩ := inherit_splitMerge (neutral_leaf codec (neutral top tops) spec) inherits
        have key : shardTopKey output.block = item.target := by
          rw [inherit_block inherits]
          rfl
        have entered := staged_enters applied.staged applied.once _ mem output (by simp)
          (by simp [key])
        rw [key] at entered
        rw [there, Option.some.injEq] at before'
        subst before'
        exact ⟨output, beside, entered, kept.trans same'⟩
      | split _ _ _ _ _ there _ _ _ _ _ _ marked =>
        obtain rfl := List.mem_singleton.mp here
        rw [there, Option.some.injEq] at before'
        subst before'
        have no := h.steady there marked.1
        rw [same'] at no
        cases no
      | @merge item seqno inside kind =>
        obtain ⟨top, -, spec⟩ := applied.tops item inside
        obtain ⟨both, two⟩ := merge_consumes_both spec.sound kind (directSibling_symm beside) here
        rw [own _ mem both] at two
        cases two
    · have kept := staged_keeps applied.staged before' fun t mem here => consumed ⟨t, mem, here⟩
      exact ⟨old', beside, kept, same'⟩
  · intro k leaf found marked
    cases announced : leaf.fields.splitMerge with
    | none | split => rfl
    | merge start interval =>
      obtain ⟨old, before, same, marks, -⟩ := applied.merge_before codec neutral found announced
      have no := h.steady before (marks marked)
      rw [same] at no
      cases no

/-- Entering a workchain adds a shard without a sibling and without an announcement. -/
theorem Symmetric.insert_root (h : Symmetric leaves) {workchain : BitVec 32}
    (quiet : leaf.fields.splitMerge = .none) :
    Symmetric (leaves.insert ⟨workchain, root⟩ leaf) := by
  have entry (k : ShardRegistryKey) : (leaves.insert ⟨workchain, root⟩ leaf)[k]? =
      if (⟨workchain, root⟩ : ShardRegistryKey) = k then some leaf else leaves[k]? := by
    simp only [Std.ExtTreeMap.getElem?_insert, Std.LawfulEqCmp.compare_eq_iff_eq]
  refine ⟨?_, ?_⟩
  · intro k l start interval found announced
    rw [entry] at found
    split at found
    · cases found
      rw [quiet] at announced
      cases announced
    · obtain ⟨k', leaf', beside, there, same⟩ := h.paired found announced
      refine ⟨k', leaf', beside, ?_, same⟩
      rw [entry, if_neg]
      · exact there
      · rintro rfl
        exact directSibling_ne_root beside rfl
  · intro k l found marked
    rw [entry] at found
    split at found
    · cases found
      rw [quiet]
      rfl
    · exact h.steady found marked

theorem Symmetric.activate (codec : tlb.RoundTrips) (h : Symmetric r.leaves)
    {workchains : WorkchainMap} {now newBlockSeqno : UInt32}
    (ok : activateMasterShardWorkchains tlb r workchains now newBlockSeqno = .ok r') :
    Symmetric r'.leaves := by
  apply activate_keep ok (I := Symmetric) h
  intro leaves workchain w cell leaf h encoded decoded
  apply h.insert_root
  obtain ⟨fields, parsed, same⟩ := decodeShardRegistryLeaf_eq_ok.mp decoded
  obtain ⟨-, ⟨tag, read⟩, -⟩ := parseShardDescriptorFields_eq_ok.mp parsed
  rw [codec.decode_encode encoded] at read
  cases read
  rw [same]
  rfl

end Registry

/-! ## The pass over the registry -/

section Pass

variable {tlb : Codec} {leaves after : LeafMap} {workchains : WorkchainMap}
  {now interval start : UInt32} {updateCatchain : Bool} {k k' : ShardRegistryKey}
  {leaf leaf' : ShardRegistryLeaf}

/-- No shard asks for both a split and a merge. -/
def OneIntent (leaves : LeafMap) : Prop :=
  ∀ {k : ShardRegistryKey} {leaf : ShardRegistryLeaf}, leaves[k]? = some leaf →
    ¬ (leaf.fields.wantSplit = true ∧ leaf.fields.wantMerge = true)

/-- No split announcement runs out on a shard that would announce a merge in its place. -/
def NoLapseBesideMerge (leaves : LeafMap) (workchains : WorkchainMap) (now : UInt32) : Prop :=
  ∀ {k k' : ShardRegistryKey} {leaf leaf' : ShardRegistryLeaf}, leaves[k]? = some leaf →
    directSibling k = some k' → leaves[k']? = some leaf' →
    SplitLapses leaf.fields now → ∀ {w : WorkchainInfo}, workchains[k.workchain]? = some w →
      ¬ MergeOpen leaf.fields leaf'.fields w (prefixLength k.shard) now

/-- The fields a shard sees of its sibling. -/
def seenBy (leaves : LeafMap) (k : ShardRegistryKey) : Option ShardDescriptorFields :=
  (directSibling k).bind fun k' => leaves[k']?.map (·.fields)

theorem seenBy_eq_some {fields : ShardDescriptorFields} :
    seenBy leaves k = some fields ↔
      ∃ k' leaf', directSibling k = some k' ∧ leaves[k']? = some leaf' ∧ leaf'.fields = fields := by
  unfold seenBy
  simp only [Option.bind_eq_some_iff, Option.map_eq_some_iff]
  constructor
  · rintro ⟨k', beside, leaf', found, same⟩
    exact ⟨k', leaf', beside, found, same⟩
  · rintro ⟨k', leaf', beside, found, same⟩
    exact ⟨k', beside, leaf', found, same⟩

/-- How the pass moves one leaf, as far as splits and merges go. -/
structure MovedLeaf (leaves : LeafMap) (workchains : WorkchainMap) (now : UInt32)
    (updateCatchain : Bool) (k : ShardRegistryKey) (leaf leaf' : ShardRegistryLeaf)
    (expired : Bool) (fields' : ShardDescriptorFields) : Prop where
  moved : Moved leaf.fields (seenBy leaves k) workchains[k.workchain]? (prefixLength k.shard) now
    updateCatchain expired fields'
  splitMerge : leaf'.fields.splitMerge = fields'.splitMerge
  beforeMerge : leaf'.fields.beforeMerge = fields'.beforeMerge
  beforeSplit : leaf'.fields.beforeSplit = fields'.beforeSplit

theorem Rewritten.movedLeaf
    (h : Rewritten tlb leaves workchains now updateCatchain k leaf leaf') :
    ∃ expired fields',
      MovedLeaf leaves workchains now updateCatchain k leaf leaf' expired fields' := by
  obtain ⟨seen, expired, fields', read, moved, result⟩ := h.moved
  rw [siblingFields_eq_ok read] at moved
  refine ⟨expired, fields', moved, ?_, ?_, ?_⟩
  all_goals
    rcases result with ⟨rfl, same⟩ | ⟨cell, -, rfl⟩
    · rw [same]
    · rfl

section

variable (h : Symmetric leaves) (intent : OneIntent leaves) (found : leaves[k]? = some leaf)
  (beside : directSibling k = some k') (found' : leaves[k']? = some leaf')
include h intent found beside found'

omit intent in
theorem Symmetric.carries (announced : leaf.fields.splitMerge = .merge start interval) :
    leaf'.fields.splitMerge = .merge start interval := by
  obtain ⟨k'', other, beside', there, same⟩ := h.paired found announced
  rw [beside, Option.some.injEq] at beside'
  rw [← beside', found', Option.some.injEq] at there
  rw [there]
  exact same

theorem Symmetric.matched : Matched leaf.fields leaf'.fields where
  merges := ⟨h.carries found beside found', h.carries found' (directSibling_symm beside) found⟩
  steady := h.steady found
  steady' := h.steady found'
  intent := intent found'

end

/-- A registry before and after a pass, with the moves of all leaves. -/
structure Passed (before after : LeafMap) (workchains : WorkchainMap) (now : UInt32)
    (updateCatchain : Bool) : Prop where
  forward : ∀ {k : ShardRegistryKey} {leaf : ShardRegistryLeaf}, before[k]? = some leaf →
    ∃ leaf' expired fields', after[k]? = some leaf' ∧
      MovedLeaf before workchains now updateCatchain k leaf leaf' expired fields'
  backward : ∀ {k : ShardRegistryKey} {leaf' : ShardRegistryLeaf}, after[k]? = some leaf' →
    ∃ leaf expired fields', before[k]? = some leaf ∧
      MovedLeaf before workchains now updateCatchain k leaf leaf' expired fields'

theorem passed_of_postprocess {r r' : ShardRegistry}
    (ok : postprocessMasterShardRegistry tlb r workchains now updateCatchain = .ok r') :
    Passed r.leaves r'.leaves workchains now updateCatchain := by
  obtain ⟨rewrites, comes⟩ := postprocess_spec ok
  constructor
  · intro k leaf found
    obtain ⟨leaf', after, rewritten⟩ := rewrites found
    obtain ⟨expired, fields', moved⟩ := rewritten.movedLeaf
    exact ⟨leaf', expired, fields', after, moved⟩
  · intro k leaf' found
    obtain ⟨leaf, before, rewritten⟩ := comes found
    obtain ⟨expired, fields', moved⟩ := rewritten.movedLeaf
    exact ⟨leaf, expired, fields', before, moved⟩

section Step

variable (h : Symmetric leaves) (intent : OneIntent leaves)
  (passed : Passed leaves after workchains now updateCatchain)
include h intent passed

theorem Passed.paired (live : NoLapseBesideMerge leaves workchains now)
    (found : after[k]? = some leaf') (announced : leaf'.fields.splitMerge = .merge start interval) :
    ∃ k' other, directSibling k = some k' ∧ after[k']? = some other ∧
      other.fields.splitMerge = .merge start interval := by
  obtain ⟨leaf, ef, f', before, m⟩ := passed.backward found
  rw [m.splitMerge] at announced
  have cases_ := m.moved.merge_iff.mp announced
  obtain ⟨k', mate, beside, there⟩ : ∃ k' mate, directSibling k = some k' ∧
      leaves[k']? = some mate := by
    rcases cases_ with ⟨kept, -⟩ | made
    · obtain ⟨k', mate, beside, there, -⟩ := h.paired before kept
      exact ⟨k', mate, beside, there⟩
    · obtain ⟨-, w, -, -, -, wanted⟩ := announcementOf_eq_merge.mp made
      unfold mergeWanted at wanted
      rw [Bool.and_eq_true, Option.any_eq_true] at wanted
      obtain ⟨-, g, seen, -⟩ := wanted
      obtain ⟨k', mate, beside, there, -⟩ := seenBy_eq_some.mp seen
      exact ⟨k', mate, beside, there⟩
  obtain ⟨other, eg, g', later, m'⟩ := passed.forward there
  refine ⟨k', other, beside, later, ?_⟩
  have seen : seenBy leaves k = some mate.fields :=
    seenBy_eq_some.mpr ⟨k', mate, beside, there, rfl⟩
  have seen' : seenBy leaves k' = some leaf.fields :=
    seenBy_eq_some.mpr ⟨k, leaf, directSibling_symm beside, before, rfl⟩
  have moved := m.moved
  have moved' := m'.moved
  rw [seen] at moved cases_
  rw [seen', directSibling_workchain beside, directSibling_prefixLength beside] at moved'
  rw [m'.splitMerge, moved'.merge_iff]
  have matched := h.matched intent before beside there
  rcases cases_ with ⟨kept, clear⟩ | made
  · exact .inl (matched.kept kept moved.expires moved'.expires clear)
  · exact .inr (matched.announces moved.expires (live before beside there) made)

theorem Passed.marked {other : ShardRegistryLeaf} (found : after[k]? = some leaf')
    (beside : directSibling k = some k') (found' : after[k']? = some other)
    (entered : leaf'.fields.beforeMerge = true) : other.fields.beforeMerge = true := by
  obtain ⟨leaf, ef, f', before, m⟩ := passed.backward found
  obtain ⟨mate, eg, g', there, m'⟩ := passed.backward found'
  have moved := m.moved
  have moved' := m'.moved
  rw [seenBy_eq_some.mpr ⟨k', mate, beside, there, rfl⟩] at moved
  rw [seenBy_eq_some.mpr ⟨k, leaf, directSibling_symm beside, before, rfl⟩,
    directSibling_workchain beside, directSibling_prefixLength beside] at moved'
  rw [m.beforeMerge, moved.beforeMerge_iff] at entered
  rw [m'.beforeMerge, moved'.beforeMerge_iff]
  exact (h.matched intent before beside there).enters moved.expires moved'.expires entered

omit h intent in
theorem Passed.due (found : after[k]? = some leaf') (entered : leaf'.fields.beforeMerge = true) :
    ∃ start interval, leaf'.fields.splitMerge = .merge start interval ∧ start ≤ now ∧
      now.toNat < start.toNat + interval.toNat := by
  obtain ⟨leaf, expired, f', before, m⟩ := passed.backward found
  rw [m.beforeMerge, m.moved.beforeMerge_iff, announcementOf_eq_due] at entered
  obtain ⟨-, w, -, ready⟩ := entered
  unfold mergeDue at ready
  simp only [Bool.and_eq_true] at ready
  obtain ⟨⟨mature, -⟩, -⟩ := ready
  rw [clearedFields_splitMerge] at mature
  split at mature
  next kept =>
    cases announced : leaf.fields.splitMerge with
    | none | split => simp [announced, FutureSplitMerge.mergeMature] at mature
    | merge start interval =>
      rw [announced] at mature
      refine ⟨start, interval, ?_, by simpa [FutureSplitMerge.mergeMature] using mature, ?_⟩
      · rw [m.splitMerge, m.moved.merge_iff]
        exact .inl ⟨announced, kept⟩
      · have expires := m.moved.expires
        obtain ⟨live, -⟩ := (clearing_eq_kept (by simp [announced])).mp kept
        rw [announced, live] at expires
        simp only [masterShardFSMExpired, FutureSplitMerge.interval?] at expires
        split at expires
        · cases expires
        · simpa using expires
  · simp [FutureSplitMerge.mergeMature] at mature

theorem Passed.symmetric (live : NoLapseBesideMerge leaves workchains now) : Symmetric after where
  paired := fun found announced => passed.paired h intent live found announced
  steady := by
    intro k leaf' found marked
    obtain ⟨leaf, expired, f', before, m⟩ := passed.backward found
    rw [m.beforeSplit, m.moved.beforeSplit_eq] at marked
    rw [m.splitMerge]
    exact m.moved.marked marked

end Step

theorem Symmetric.kept (h : Symmetric leaves) {expired : Bool}
    (found : leaves[k]? = some leaf) (read : siblingFields leaves k = .ok seen) :
    clearing leaf.fields seen expired ≠ .siblingGone := by
  intro gone
  unfold clearing at gone
  split at gone
  · cases gone
  · split at gone
    next lost =>
      obtain ⟨merges, absent⟩ := lost
      cases announced : leaf.fields.splitMerge with
      | none | split =>
        rw [announced] at merges
        cases merges
      | merge start interval =>
        obtain ⟨k', mate, beside, there, same⟩ := h.paired found announced
        have visible : seen = some mate.fields := by
          rw [siblingFields_eq_ok read]
          exact seenBy_eq_some.mpr ⟨k', mate, beside, there, rfl⟩
        rw [visible, Option.all_some] at absent
        have no := h.steady there absent
        rw [same] at no
        cases no
    · cases gone

end Pass

/-! ## Runs -/

/-- After a pass siblings announce and enter their merges together, and the pass has dropped no
live merge for want of a sibling. -/
structure MasterPass.MergesAlike (pass : MasterPass) : Prop where
  announced : ∀ {k : ShardRegistryKey} {leaf : ShardRegistryLeaf} {start interval : UInt32},
    pass.after.leaves[k]? = some leaf →
    (leaf.fields.splitMerge = .merge start interval ↔
      ∃ k' leaf', directSibling k = some k' ∧ pass.after.leaves[k']? = some leaf' ∧
        leaf'.fields.splitMerge = .merge start interval)
  marked : ∀ {k k' : ShardRegistryKey} {leaf leaf' : ShardRegistryLeaf},
    pass.after.leaves[k]? = some leaf → directSibling k = some k' →
    pass.after.leaves[k']? = some leaf' → leaf.fields.beforeMerge = leaf'.fields.beforeMerge
  due : ∀ {k : ShardRegistryKey} {leaf : ShardRegistryLeaf}, pass.after.leaves[k]? = some leaf →
    leaf.fields.beforeMerge = true →
    ∃ start interval, leaf.fields.splitMerge = .merge start interval ∧
      start ≤ pass.input.request.genUtime ∧
      pass.input.request.genUtime.toNat < start.toNat + interval.toNat
  kept : ∀ {k : ShardRegistryKey} {leaf : ShardRegistryLeaf}
    {seen : Option ShardDescriptorFields} {expired : Bool}, pass.before.leaves[k]? = some leaf →
    siblingFields pass.before.leaves k = .ok seen →
    masterShardFSMExpired leaf.fields.splitMerge pass.input.request.genUtime = .ok expired →
    clearing leaf.fields seen expired ≠ .siblingGone

theorem Collated.mergesAlike {tlb : Codec} (codec : tlb.RoundTrips)
    {pass : MasterPass} {parsed applied : ShardRegistry} {tops : List ShardTop} {startLT : UInt64}
    (h : Symmetric parsed.leaves)
    (collated : Collated tlb shardHashes pass parsed applied tops startLT)
    (intent : OneIntent pass.before.leaves)
    (live : NoLapseBesideMerge pass.before.leaves pass.input.nextWorkchains
      pass.input.request.genUtime) :
    pass.MergesAlike ∧ Symmetric pass.after.leaves := by
  have before : Symmetric pass.before.leaves :=
    (h.apply codec collated.neutral collated.applies).activate codec collated.activates
  have passed := passed_of_postprocess collated.moves
  have after : Symmetric pass.after.leaves := passed.symmetric before intent live
  refine ⟨⟨?_, ?_, ?_, ?_⟩, after⟩
  · intro k leaf start interval found
    refine ⟨after.paired found, ?_⟩
    rintro ⟨k', leaf', beside, there, announced⟩
    exact after.carries there (directSibling_symm beside) found announced
  · intro k k' leaf leaf' found beside found'
    apply Bool.eq_iff_iff.mpr
    constructor
    · exact passed.marked before intent found beside found'
    · exact passed.marked before intent found' (directSibling_symm beside) found
  · intro k leaf found entered
    exact passed.due found entered
  · intro k leaf seen expired found read _
    exact before.kept found read

/-- Along every run from a registry without announcements, siblings announce and enter their
merges together, as long as no split announcement runs out beside a sibling ready to merge. -/
theorem siblings_merge_alike (tlb : Codec) (codec : tlb.RoundTrips) (reader : TopReader)
    {shardHashes : ShardHashes} {start : ShardRegistry} {inputs : List MasterBlockInput}
    {passes : List MasterPass} (read : ShardRegistry.parse tlb shardHashes = .ok start)
    (quiet : ∀ {k : ShardRegistryKey} {leaf : ShardRegistryLeaf}, start.leaves[k]? = some leaf →
      leaf.fields.splitMerge = .none ∧ leaf.fields.beforeMerge = false)
    (run : collateMasterBlocks tlb reader shardHashes inputs = .ok passes)
    (intent : ∀ pass ∈ passes, OneIntent pass.before.leaves)
    (live : ∀ pass ∈ passes, NoLapseBesideMerge pass.before.leaves pass.input.nextWorkchains
      pass.input.request.genUtime) :
    ∀ pass ∈ passes, pass.MergesAlike := by
  refine collateMasterBlocks_induct codec (I := Symmetric)
    (Q := fun pass => OneIntent pass.before.leaves ∧ NoLapseBesideMerge pass.before.leaves
      pass.input.nextWorkchains pass.input.request.genUtime) ?_ ?_ run ?_
  · intro shardHashes pass parsed applied tops startLT before allowed collated
    exact collated.mergesAlike codec before allowed.1 allowed.2
  · intro r again
    rw [read] at again
    cases again
    exact symmetric_of_quiet fun found => (quiet found).1
  · intro pass mem
    exact ⟨intent pass mem, live pass mem⟩

/-! ## Two runs -/

theorem mem_toList_of_found (found : leaves[k]? = some leaf) : (k, leaf) ∈ leaves.toList :=
  Std.ExtTreeMap.mem_toList_iff_getElem?_eq_some.mpr found

/-- A basechain that splits and merges a hundred seconds ahead, for a hundred seconds. -/
def steadyWorkchains : WorkchainMap :=
  (∅ : WorkchainMap).insert 0#32 { activeWorkchain with
    maxSplit := 60
    splitMergeDelay := 100
    splitMergeInterval := 100
    minSplitMergeInterval := 30
    maxSplitMergeDelay := 1000 }

/-- A block of the masterchain at a time, with some tips. -/
def blockAt (seqno genUtime : UInt32) (tops : List ShardTop) : MasterBlockInput where
  request := {
    shardTops := tops
    genUtime := genUtime
    globalVersion := 13
    capabilities := 0
    workchains := steadyWorkchains }
  seqno := seqno
  previousLT := 0
  nextWorkchains := steadyWorkchains
  updateCatchain := false

/-- A reader that knows the one-block chains of a table, each by its position. -/
def tableReader (table : List (BlockID × ShardDescriptorFields)) : TopReader where
  envelope cell := table[cell.bits.length]?.map fun entry => ⟨entry.1, 1, .mk false [] [cell]⟩
  isMerkleProof := fun _ => true
  link cell := table[cell.bits.length]?.map fun entry => {
    rootHash := entry.1.rootHash
    workchain := entry.1.workchain
    shard := entry.1.shard
    seqno := entry.2.seqno
    startLT := entry.2.startLT
    endLT := entry.2.endLT
    genUtime := entry.2.genUtime
    minRefMCSeqno := entry.2.minRefMCSeqno
    genCatchainSeqno := entry.2.nextCatchainSeqno
    beforeSplit := entry.2.beforeSplit
    wantSplit := entry.2.wantSplit
    wantMerge := entry.2.wantMerge
    feesCollected := entry.2.fees
    created := entry.2.created }
  hashKey cell := [UInt8.ofNat cell.bits.length]
  add x y := some ⟨x.coins + y.coins, []⟩

def leftFields (seqno : UInt32) : ShardDescriptorFields := plainFields (getChild root true) seqno

def rightFields (seqno : UInt32) : ShardDescriptorFields := plainFields (getChild root false) seqno

/-- Both halves ask to merge. -/
def mergingTable : List ShardDescriptorFields :=
  let left := { leftFields 7 with wantMerge := true }
  let right := { rightFields 8 with wantMerge := true }
  [left, right, { left with splitMerge := .merge 1100 100 },
    { right with splitMerge := .merge 1100 100 },
    { left with splitMerge := .merge 1100 100, beforeMerge := true },
    { right with splitMerge := .merge 1100 100, beforeMerge := true }]

def mergingCodec : Codec := tableCodec (mergingTable.map fun fields => (.a, fields))

def mergingStart : ShardRegistry := resultD (ShardRegistry.parse mergingCodec pairHashes) ⟨∅, ∅⟩

def mergingInputs : List MasterBlockInput := [blockAt 2 1000 [], blockAt 3 1150 []]

def mergingPasses : List MasterPass :=
  resultD (collateMasterBlocks mergingCodec (tableReader []) pairHashes mergingInputs) []

theorem siblings_merge_alike_halves :
    (∀ pass ∈ mergingPasses, pass.MergesAlike) ∧ ∃ pass ∈ mergingPasses,
      ∃ leaf, pass.after.leaves[(⟨0#32, getChild root true⟩ : ShardRegistryKey)]? = some leaf ∧
        leaf.fields.beforeMerge = true := by
  have read : ShardRegistry.parse mergingCodec pairHashes = .ok mergingStart :=
    eq_ok_resultD (by decide +kernel)
  have run : collateMasterBlocks mergingCodec (tableReader []) pairHashes mergingInputs =
      .ok mergingPasses := eq_ok_resultD (by decide +kernel)
  refine ⟨?_, ?_⟩
  · refine siblings_merge_alike mergingCodec (tableCodec_roundTrips _) (tableReader []) read ?_ run
      ?_ ?_
    · intro k leaf found
      have each : ∀ item ∈ mergingStart.leaves.toList,
          item.2.fields.splitMerge = .none ∧ item.2.fields.beforeMerge = false := by decide +kernel
      exact each _ (mem_toList_of_found found)
    · intro pass mem k leaf found
      have each : ∀ pass ∈ mergingPasses, ∀ item ∈ pass.before.leaves.toList,
          ¬ (item.2.fields.wantSplit = true ∧ item.2.fields.wantMerge = true) := by decide +kernel
      exact each pass mem _ (mem_toList_of_found found)
    · intro pass mem k k' leaf leaf' found _ _ lapses
      have each : ∀ pass ∈ mergingPasses, ∀ item ∈ pass.before.leaves.toList,
          item.2.fields.splitMerge = .none ∨ item.2.fields.splitMerge = .merge 1100 100 := by
        decide +kernel
      obtain ⟨start, interval, split, -⟩ := lapses
      have kinds := each pass mem _ (mem_toList_of_found found)
      simp [split] at kinds
  · have there : ∃ pass ∈ mergingPasses,
        (pass.after.leaves[(⟨0#32, getChild root true⟩ : ShardRegistryKey)]?.map
          (·.fields.beforeMerge)) = some true := by decide +kernel
    obtain ⟨pass, mem, marked⟩ := there
    obtain ⟨leaf, found, entered⟩ := Option.map_eq_some_iff.mp marked
    exact ⟨pass, mem, leaf, found, entered⟩

/-- The left half asks for a split and lets it run out; then both halves ask to merge; then the
right half asks for a split and starts it. The table begins with the two halves, then has the tips
as they are offered, then what the registry writes. -/
def lapsingTable : List ShardDescriptorFields :=
  let left := { leftFields 7 with wantSplit := true }
  let left₂ := { leftFields 8 with wantMerge := true }
  let right₂ := { rightFields 9 with wantMerge := true }
  let right₃ := { rightFields 10 with wantSplit := true }
  let right₄ := { rightFields 11 with beforeSplit := true, genUtime := 1315 }
  [left, rightFields 8, left₂, right₂, right₃, right₄,
    { left with splitMerge := .split 1100 100 },
    { left₂ with regMCSeqno := 3 },
    { left₂ with regMCSeqno := 3, splitMerge := .split 1100 100 },
    { left₂ with regMCSeqno := 3, splitMerge := .merge 1300 100 },
    { right₂ with regMCSeqno := 3 },
    { right₃ with regMCSeqno := 4 },
    { right₃ with regMCSeqno := 4, splitMerge := .split 1310 100 },
    { right₄ with regMCSeqno := 5 },
    { right₄ with regMCSeqno := 5, splitMerge := .split 1310 100 }]

def lapsingCodec : Codec := tableCodec (lapsingTable.map fun fields => (.a, fields))

def lapsingReader : TopReader :=
  tableReader (lapsingTable.map fun fields => (blockOf fields, fields))

/-- The tip at a position of the table, one block after another one. -/
def lapsingTop (i : Nat) (predecessor : ShardDescriptorFields) : ShardTop where
  block := blockOf (lapsingTable.getD i (leftFields 0))
  predecessors := [blockOf predecessor]
  descriptor := .mk false (List.replicate i true) []
  topBlockDescr := .mk false (List.replicate i true) []
  creators := []

def lapsingStart : ShardRegistry := resultD (ShardRegistry.parse lapsingCodec pairHashes) ⟨∅, ∅⟩

def lapsingInputs : List MasterBlockInput :=
  [blockAt 2 1000 [],
    blockAt 3 1200 [lapsingTop 2 (leftFields 7), lapsingTop 3 (rightFields 8)],
    blockAt 4 1210 [lapsingTop 4 (rightFields 9)],
    blockAt 5 1320 [lapsingTop 5 (rightFields 10)]]

def lapsingPasses : List MasterPass :=
  resultD (collateMasterBlocks lapsingCodec lapsingReader pairHashes lapsingInputs) []

/-- The announcement of one half after a pass. -/
def MasterPass.announcement (pass : MasterPass) (left : Bool) : Option FutureSplitMerge :=
  pass.after.leaves[(⟨0#32, getChild root left⟩ : ShardRegistryKey)]?.map (·.fields.splitMerge)

/-- What the left half's announcement came to in a pass, as the pass decided it. -/
def MasterPass.leftClearing (pass : MasterPass) : Option Clearing :=
  pass.before.leaves[(⟨0#32, getChild root true⟩ : ShardRegistryKey)]?.map fun leaf =>
    clearing leaf.fields
      (resultD (siblingFields pass.before.leaves ⟨0#32, getChild root true⟩) none)
      (resultD (masterShardFSMExpired leaf.fields.splitMerge pass.input.request.genUtime) true)

/-- A split that runs out beside a half ready to merge leaves a merge announced on one side only;
the other side is then free to split, and the live announcement is dropped. -/
theorem merge_announced_by_one_half :
    ShardRegistry.parse lapsingCodec pairHashes = .ok lapsingStart ∧
    (∀ item ∈ lapsingStart.leaves.toList,
      item.2.fields.splitMerge = .none ∧ item.2.fields.beforeMerge = false) ∧
    collateMasterBlocks lapsingCodec lapsingReader pairHashes lapsingInputs = .ok lapsingPasses ∧
    (∀ pass ∈ lapsingPasses, ∀ item ∈ pass.before.leaves.toList,
      ¬ (item.2.fields.wantSplit = true ∧ item.2.fields.wantMerge = true)) ∧
    (∃ pass ∈ lapsingPasses, pass.announcement true = some (.merge 1300 100) ∧
      pass.announcement false = some .none) ∧
    ∃ pass ∈ lapsingPasses, pass.input.request.genUtime < 1400 ∧
      pass.leftClearing = some .siblingGone := by
  refine ⟨eq_ok_resultD (by decide +kernel), by decide +kernel, eq_ok_resultD (by decide +kernel),
    by decide +kernel, by decide +kernel, by decide +kernel⟩

end Gton.Collator
