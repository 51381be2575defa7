import Mathlib.Data.UInt

/-!
# Votes, certificates and rosters of one Simplex session

The values the engine exchanges. Byte strings that only travel (keys, signatures) stay
byte lists; `[32]byte` is one 256-bit number, so that byte-lexicographic order is numeric
order. TL payloads are kept symbolic, one constructor per boxed type that is signed.
-/

namespace Gton.Simplex

abbrev Hash := BitVec 256
abbrev PublicKey := List UInt8
abbrev Signature := List UInt8
abbrev PeerID := Hash

/-- Clock readings and durations, in nanoseconds. -/
abbrev Time := Nat

structure CandidateID where
  slot : UInt32
  hash : Hash
  deriving DecidableEq, Repr

/-- Order by slot, then byte-lexicographic on the hash. -/
def CandidateID.compare (a b : CandidateID) : Ordering :=
  if a.slot ≠ b.slot then
    if a.slot < b.slot then .lt else .gt
  else if a.hash ≠ b.hash then
    if a.hash < b.hash then .lt else .gt
  else .eq

/-- An optional candidate id. The zero value is the consensus genesis. -/
structure ParentID where
  defined : Bool
  id : CandidateID
  deriving DecidableEq, Repr

def parent (id : CandidateID) : ParentID := ⟨true, id⟩

def genesis : ParentID := ⟨false, ⟨0, 0⟩⟩

/-- Genesis sorts before any defined id. -/
def ParentID.compare (p o : ParentID) : Ordering :=
  if p.defined ≠ o.defined then
    if !p.defined then .lt else .gt
  else if !p.defined then .eq
  else p.id.compare o.id

inductive VoteKind where
  | notarize | finalize | skip
  deriving DecidableEq, Repr

/-- A skip vote carries its slot in `id` and the zero hash. -/
structure Vote where
  kind : VoteKind
  id : CandidateID
  deriving DecidableEq, Repr

def notarizeVote (id : CandidateID) : Vote := ⟨.notarize, id⟩
def finalizeVote (id : CandidateID) : Vote := ⟨.finalize, id⟩
def skipVote (slot : UInt32) : Vote := ⟨.skip, ⟨slot, 0⟩⟩

def Vote.slot (v : Vote) : UInt32 := v.id.slot

/-- The vote a TL encoding of `v` decodes to: a skip vote only carries its slot. -/
def Vote.decoded (v : Vote) : Vote :=
  match v.kind with
  | .skip => skipVote v.slot
  | _ => v

theorem Vote.decoded_of_kind {v : Vote} (h : v.kind ≠ .skip) : v.decoded = v := by
  unfold decoded
  split
  · rename_i h'; exact (h h').elim
  · rfl

theorem Vote.decoded_decoded (v : Vote) : v.decoded.decoded = v.decoded := by
  by_cases h : v.kind = .skip
  · simp [decoded, h, skipVote, slot]
  · rw [decoded_of_kind h, decoded_of_kind h]

@[simp] theorem notarizeVote_slot (id : CandidateID) : (notarizeVote id).slot = id.slot := rfl
@[simp] theorem finalizeVote_slot (id : CandidateID) : (finalizeVote id).slot = id.slot := rfl
@[simp] theorem skipVote_slot (s : UInt32) : (skipVote s).slot = s := rfl
@[simp] theorem notarizeVote_kind (id : CandidateID) : (notarizeVote id).kind = .notarize := rfl
@[simp] theorem finalizeVote_kind (id : CandidateID) : (finalizeVote id).kind = .finalize := rfl
@[simp] theorem skipVote_kind (s : UInt32) : (skipVote s).kind = .skip := rfl
@[simp] theorem notarizeVote_id (id : CandidateID) : (notarizeVote id).id = id := rfl
@[simp] theorem finalizeVote_id (id : CandidateID) : (finalizeVote id).id = id := rfl

structure SignedVote where
  validatorIndex : Nat
  vote : Vote
  signature : Signature
  deriving DecidableEq, Repr

structure VoteSignature where
  validatorIndex : Nat
  signature : Signature
  deriving DecidableEq, Repr

/-- A weighted-quorum proof for one vote. -/
structure Certificate where
  vote : Vote
  signatures : List VoteSignature
  deriving DecidableEq, Repr

structure Validator where
  publicKey : PublicKey
  weight : UInt64
  deriving DecidableEq, Repr

structure BlockIDExt where
  workchain : Int
  shard : Int
  seqno : UInt32
  rootHash : List UInt8
  fileHash : List UInt8
  deriving DecidableEq, Repr

/-- The leader's authorisation of a collator for one leader window. -/
structure Delegation where
  collatorKey : PublicKey
  signature : Signature
  deriving DecidableEq, Repr

structure Candidate where
  id : CandidateID
  parent : ParentID
  leader : UInt32
  empty : Bool
  block : BlockIDExt
  collatedFileHash : Hash
  signature : Signature
  delegation : Option Delegation
  deriving DecidableEq, Repr

/-- Boxed `consensus.CandidateHashData`; `parentToTL` drops the id of an undefined parent. -/
inductive HashData where
  | empty (block : BlockIDExt) (parent : CandidateID)
  | ordinary (block : BlockIDExt) (collatedFileHash : Hash) (parent : Option CandidateID)
  deriving DecidableEq, Repr

/-- `consensus.dataToSign` over the three payloads a session signs. -/
inductive Payload where
  | vote (sessionID : Hash) (v : Vote)
  | candidateID (sessionID : Hash) (id : CandidateID)
  | delegation (sessionID : Hash) (windowStart : UInt32) (collatorID : Hash)
  deriving DecidableEq, Repr

/-- The noncritical parameters the engine reads. `scaleTimeout` is the floating-point
scaling of the first-block timeout, its cap included. -/
structure Params where
  targetRate : Time
  firstBlockTimeout : Time
  scaleTimeout : Time → Time
  standstillTimeout : Time
  maxLeaderWindowDesync : UInt32
  badSignatureBanDuration : Time

/-- 2^61, the cap that keeps twice the total inside a `uint64`. -/
def maxTotalWeight : UInt64 := 2305843009213693952

def ed25519PublicKeySize : Nat := 32
def ed25519SignatureSize : Nat := 64

/-- The running sum of `totalValidatorWeight`, from validator `i` on. -/
def totalWeightFrom (total : UInt64) (i : Nat) : List Validator → Except String UInt64
  | [] => .ok total
  | v :: rest =>
    if v.publicKey.length ≠ ed25519PublicKeySize then
      .error s!"simplex: validator {i} has invalid public key"
    else if v.weight = 0 then
      .error s!"simplex: validator {i} has zero weight"
    else if total + v.weight > maxTotalWeight then
      .error "simplex: total validator weight exceeds 2^61"
    else totalWeightFrom (total + v.weight) (i + 1) rest

def totalValidatorWeight (validators : List Validator) : Except String UInt64 :=
  totalWeightFrom 0 0 validators

/-- The session an engine is built for: what `NewEngine` fixes, the crypto it calls and
the signer it is given. `sign n v` is the answer to the `n`-th call of `Signer.Sign`. -/
structure Config where
  sessionID : Hash
  validators : List Validator
  /-- `none` is a non-voting observer. -/
  localIndex : Option Nat
  spw : UInt32
  expectedLeader : UInt32 → UInt32
  sha256 : HashData → Hash
  ed25519Verify : PublicKey → Payload → Signature → Bool
  sign : Nat → Payload → Option Signature
  keyNodeIDShort : PublicKey → Hash

/-- The quorum threshold `total * 2 / 3 + 1`, zero for a roster that is not admitted
(`NewEngine` refuses it). -/
def Config.threshold (cfg : Config) : UInt64 :=
  match totalValidatorWeight cfg.validators with
  | .ok total => total * 2 / 3 + 1
  | .error _ => 0

def Config.weight (cfg : Config) (idx : Nat) : UInt64 :=
  ((cfg.validators[idx]?).map Validator.weight).getD 0

/-- What is signed for a vote: its TL encoding, so a skip vote only counts by its slot. -/
def Config.votePayload (cfg : Config) (v : Vote) : Payload := .vote cfg.sessionID v.decoded

/-- One vote signature against the roster key of its claimed author. -/
def Config.verifyVote (cfg : Config) (idx : Nat) (v : Vote) (sig : Signature) : Bool :=
  match cfg.validators[idx]? with
  | none => false
  | some validator =>
    sig.length == ed25519SignatureSize &&
      cfg.ed25519Verify validator.publicKey (cfg.votePayload v) sig

end Gton.Simplex
