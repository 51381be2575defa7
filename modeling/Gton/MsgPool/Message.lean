import Gton.Lib.Fallible
import Gton.Shard.Ident
import Mathlib.Data.Prod.Lex

/-!
# Messages of the import stream

A message is shared by reference: `obj` is the identity of its object, so that two objects with
the same content stay apart. Its cells are their hashes; what no modelled function reads of a
message (the parsed envelope, the destination account) is left out.
-/

namespace Gton.MsgPool

open Gton.Shard Gton.Lib.Fallible
open List

abbrev Hash := BitVec 256

/-- `SourceRef`: one position of a source chain. -/
structure SourceRef where
  seqno : UInt32
  rootHash : Hash
  deriving DecidableEq

/-- `QueueKey`: next hop and message hash. -/
structure QueueKey where
  nextHop : AccountPrefix
  msgHash : Hash
  deriving DecidableEq

structure InternalMessage where
  obj : Nat
  key : QueueKey
  enqueuedLT : UInt64
  queueLT : UInt64
  envHash : Hash
  envelopeCell : Hash
  root : Hash
  source : ShardIdent
  sourceSeqno : UInt32
  /-- Neither the message nor one of its two cells is nil. -/
  complete : Bool
  deriving DecidableEq

/-- `InternalsDelta`: the change one block makes to a source queue. -/
structure InternalsDelta where
  added : List InternalMessage
  removedKeys : List QueueKey
  removedEnvHashes : List Hash
  addedTotal : Int64
  removedTotal : Int64
  expectedQueueSize : Option UInt64

/-- What `ErrApplyDisorder` is wrapped around. -/
inductive Disorder
  | incomplete (index : Nat)
  | outsideOwner (index : Nat)
  | breaksOrder (index : Nat)
  | repeatsKey (index : Nat)
  | repeatsEnvelope (index : Nat)
  | otherSource (index : Nat)
  | newer (index : Nat)
  | seedKey
  | seedEnvelope
  | untrackedRemoval
  | duplicatesKey
  | duplicatesEnvelope
  | duplicateHash
  | negativeSize
  | sizeDiverges
  | conflictingReplay
  /-- An index that points past the run; the source would stop with a panic. -/
  | outOfRange
  deriving DecidableEq

namespace InternalMessage

/-- `orderKey`: the canonical import order is by lt and then by message hash. -/
def order (m : InternalMessage) : Nat ×ₗ Nat := toLex (m.enqueuedLT.toNat, m.key.msgHash.toNat)

end InternalMessage

/-- `CompareLtHash`; `bytes.Compare` of two hashes is the comparison of the numbers they write. -/
def compareLtHash (a b : InternalMessage) : Ordering :=
  if a.enqueuedLT ≠ b.enqueuedLT then
    if a.enqueuedLT < b.enqueuedLT then .lt else .gt
  else compare a.key.msgHash.toNat b.key.msgHash.toNat

theorem compareLtHash_eq (a b : InternalMessage) : compareLtHash a b = compare a.order b.order := by
  unfold compareLtHash
  split
  next differ =>
    have apart : a.enqueuedLT.toNat ≠ b.enqueuedLT.toNat := fun eq =>
      differ (UInt64.toNat_inj.mp eq)
    split
    next lt =>
      refine (compare_lt_iff_lt.mpr (Prod.Lex.toLex_lt_toLex.mpr (.inl ?_))).symm
      exact UInt64.lt_iff_toNat_lt.mp lt
    next ge =>
      refine (compare_gt_iff_gt.mpr (Prod.Lex.toLex_lt_toLex.mpr (.inl ?_))).symm
      have := mt UInt64.lt_iff_toNat_lt.mpr ge
      omega
  next same =>
    have same : a.enqueuedLT.toNat = b.enqueuedLT.toNat := by rw [not_not.mp same]
    rcases lt_trichotomy a.key.msgHash.toNat b.key.msgHash.toNat with lt | eq | gt
    · rw [compare_lt_iff_lt.mpr lt]
      exact (compare_lt_iff_lt.mpr (Prod.Lex.toLex_lt_toLex.mpr (.inr ⟨same, lt⟩))).symm
    · rw [compare_eq_iff_eq.mpr eq]
      refine (compare_eq_iff_eq.mpr ?_).symm
      unfold InternalMessage.order
      rw [same, eq]
    · rw [compare_gt_iff_gt.mpr gt]
      exact (compare_gt_iff_gt.mpr (Prod.Lex.toLex_lt_toLex.mpr (.inr ⟨same.symm, gt⟩))).symm

variable {b a : InternalMessage} {msgs : List InternalMessage} {owner : ShardIdent}

theorem compareLtHash_lt : compareLtHash a b = .lt ↔ a.order < b.order := by
  rw [compareLtHash_eq, compare_lt_iff_lt]

theorem compareLtHash_eq_iff : compareLtHash a b = .eq ↔ a.order = b.order := by
  rw [compareLtHash_eq, compare_eq_iff_eq]

theorem compareLtHash_gt : compareLtHash a b = .gt ↔ b.order < a.order := by
  rw [compareLtHash_eq, compare_gt_iff_gt]

/-! ## Batches -/

/-- Strictly increasing in the import order. -/
abbrev Ordered (msgs : List InternalMessage) : Prop := msgs.Pairwise (·.order < ·.order)

/-- What a batch that enters a run is checked for. -/
structure Batch (owner : ShardIdent) (msgs : List InternalMessage) : Prop where
  complete : ∀ m ∈ msgs, m.complete = true
  routed : ∀ m ∈ msgs, owner.containsPrefix m.key.nextHop = true
  ordered : Ordered msgs
  keys : (msgs.map (·.key)).Nodup
  envelopes : (msgs.map (·.envHash)).Nodup

/-- The loop of `validateSorted`, at position `index` after `last`, with what it has seen. -/
def validateSortedFrom (owner : ShardIdent) : Nat → Option InternalMessage → List QueueKey →
    List Hash → List InternalMessage → Except Disorder Unit
  | _, _, _, _, [] => .ok ()
  | index, last, keys, envelopes, msg :: msgs =>
    if msg.complete = false then .error (.incomplete index)
    else if owner.containsPrefix msg.key.nextHop = false then .error (.outsideOwner index)
    else if last.any fun before => compareLtHash before msg != .lt then .error (.breaksOrder index)
    else if msg.key ∈ keys then .error (.repeatsKey index)
    else if msg.envHash ∈ envelopes then .error (.repeatsEnvelope index)
    else
      validateSortedFrom owner (index + 1) (some msg) (msg.key :: keys) (msg.envHash :: envelopes)
        msgs

def validateSorted (owner : ShardIdent) (msgs : List InternalMessage) : Except Disorder Unit :=
  validateSortedFrom owner 0 none [] [] msgs

theorem validateSortedFrom_ok {index : Nat} {last : Option InternalMessage}
    {keys : List QueueKey} {envelopes : List Hash} :
    validateSortedFrom owner index last keys envelopes msgs = .ok () ↔
      Batch owner msgs ∧ (∀ before ∈ last, ∀ m ∈ msgs, before.order < m.order) ∧
        (∀ m ∈ msgs, m.key ∉ keys) ∧ ∀ m ∈ msgs, m.envHash ∉ envelopes := by
  induction msgs generalizing index last keys envelopes with
  | nil =>
    simp only [validateSortedFrom, not_mem_nil, false_implies, implies_true, and_true,
      true_iff]
    exact ⟨by simp, by simp, .nil, .nil, .nil⟩
  | cons msg msgs ih =>
    have first : last.any (fun before => compareLtHash before msg != .lt) = true ↔
        ¬ ∀ before ∈ last, before.order < msg.order := by
      cases last with
      | none => simp
      | some before => simp [compareLtHash_lt]
    unfold validateSortedFrom
    rw [guard_eq_ok, guard_eq_ok, guard_eq_ok, guard_eq_ok, guard_eq_ok, ih, first, not_not]
    constructor
    · rintro ⟨complete, routed, after, newKey, newEnvelope, rest, above, keys', envelopes'⟩
      simp only [mem_cons, not_or] at keys' envelopes'
      have above := above msg rfl
      refine ⟨⟨?_, ?_, ?_, ?_, ?_⟩, ?_, ?_, ?_⟩
      · simpa [complete] using rest.complete
      · simpa [routed] using rest.routed
      · exact pairwise_cons.mpr ⟨above, rest.ordered⟩
      · refine nodup_cons.mpr ⟨?_, rest.keys⟩
        simp only [mem_map, not_exists, not_and]
        exact fun m mem => (keys' m mem).1
      · refine nodup_cons.mpr ⟨?_, rest.envelopes⟩
        simp only [mem_map, not_exists, not_and]
        exact fun m mem => (envelopes' m mem).1
      · intro before mem m hm
        rcases mem_cons.mp hm with rfl | hm
        · exact after before mem
        · exact (after before mem).trans (above m hm)
      · simpa [newKey] using fun m mem => (keys' m mem).2
      · simpa [newEnvelope] using fun m mem => (envelopes' m mem).2
    · rintro ⟨batch, after, keys', envelopes'⟩
      obtain ⟨above, ordered⟩ := pairwise_cons.mp batch.ordered
      obtain ⟨freshKey, restKeys⟩ := nodup_cons.mp batch.keys
      obtain ⟨freshEnvelope, restEnvelopes⟩ := nodup_cons.mp batch.envelopes
      simp only [mem_map, not_exists, not_and] at freshKey freshEnvelope
      simp only [mem_cons, not_or]
      exact ⟨by simp [batch.complete msg], by simp [batch.routed msg],
        fun before mem => after before mem msg (.head _), keys' msg (.head _),
        envelopes' msg (.head _), ⟨fun m mem => batch.complete m (.tail _ mem),
          fun m mem => batch.routed m (.tail _ mem), ordered, restKeys, restEnvelopes⟩,
        by rintro _ ⟨⟩; exact above,
        fun m mem => ⟨freshKey m mem, keys' m (.tail _ mem)⟩,
        fun m mem => ⟨freshEnvelope m mem, envelopes' m (.tail _ mem)⟩⟩

theorem validateSorted_ok : validateSorted owner msgs = .ok () ↔ Batch owner msgs := by
  unfold validateSorted
  rw [validateSortedFrom_ok]
  simp

/-- The loop of `validateSource`. -/
def validateSourceFrom (source : ShardIdent) (seqno : UInt32) :
    Nat → List InternalMessage → Except Disorder Unit
  | _, [] => .ok ()
  | index, msg :: msgs =>
    if msg.source ≠ source then .error (.otherSource index)
    else if msg.sourceSeqno > seqno then .error (.newer index)
    else validateSourceFrom source seqno (index + 1) msgs

def validateSource (source : ShardIdent) (seqno : UInt32) (msgs : List InternalMessage) :
    Except Disorder Unit :=
  validateSourceFrom source seqno 0 msgs

/-- Every message is of the source and not newer than the position. -/
abbrev Sourced (source : ShardIdent) (seqno : UInt32) (msgs : List InternalMessage) : Prop :=
  ∀ m ∈ msgs, m.source = source ∧ m.sourceSeqno ≤ seqno

theorem validateSource_ok {source : ShardIdent} {seqno : UInt32} :
    validateSource source seqno msgs = .ok () ↔ Sourced source seqno msgs := by
  have from_ (index : Nat) :
      validateSourceFrom source seqno index msgs = .ok () ↔ Sourced source seqno msgs := by
    induction msgs generalizing index with
    | nil => simp [validateSourceFrom, Sourced]
    | cons msg msgs ih =>
      unfold validateSourceFrom
      rw [guard_eq_ok, guard_eq_ok, ih, not_not, UInt32.not_lt, ← and_assoc]
      simp only [Sourced, forall_mem_cons]
  exact from_ 0

end Gton.MsgPool
