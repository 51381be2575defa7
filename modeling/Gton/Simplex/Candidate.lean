import Gton.Lib.Fallible
import Gton.Simplex.Types

/-!
# Candidates: identity, shape and authority

A candidate is identified by its slot and the hash of its hash data. The hash function and
the signature check belong to the configuration.
-/

namespace Gton.Simplex

open Gton.Lib.Fallible

variable {c : Candidate}

namespace Candidate

def hashData (c : Candidate) : HashData :=
  if c.empty then .empty c.block c.parent.id
  else .ordinary c.block c.collatedFileHash (if c.parent.defined then some c.parent.id else none)

def computeID (sha256 : HashData → Hash) (c : Candidate) (slot : UInt32) : CandidateID :=
  ⟨slot, sha256 c.hashData⟩

/-- Structural checks before any serialization. -/
def validateShape (c : Candidate) : Except String Unit :=
  if c.block.rootHash.length ≠ 32 ∨ c.block.fileHash.length ≠ 32 then
    .error "simplex: candidate block hashes must be 32 bytes"
  else if c.empty ∧ !c.parent.defined then
    .error "simplex: empty candidate must have a parent"
  else if c.parent.defined ∧ c.id.slot ≤ c.parent.id.slot then
    let p := c.parent.id.slot
    let s := c.id.slot
    .error s!"simplex: candidate parent slot {p} is not before slot {s}"
  else .ok ()

theorem validateShape_parent_lt (h : c.validateShape = .ok ())
    (hp : c.parent.defined = true) : c.parent.id.slot < c.id.slot := by
  simp only [validateShape, guard_eq_ok, hp, true_and, UInt32.not_le] at h
  exact h.2.2.1

end Candidate

namespace Config

variable (cfg : Config)

def verifyCandidateSignature (key : PublicKey) (id : CandidateID) (sig : Signature) : Bool :=
  sig.length == ed25519SignatureSize && cfg.ed25519Verify key (.candidateID cfg.sessionID id) sig

def verifyDelegationSignature (leaderKey : PublicKey) (windowStart : UInt32) (collatorID : Hash)
    (sig : Signature) : Bool :=
  sig.length == ed25519SignatureSize &&
    cfg.ed25519Verify leaderKey (.delegation cfg.sessionID windowStart collatorID) sig

/-- The delegation trio: the leader signed this window for exactly this collator, and the
candidate is signed by the collator's key. -/
def verifyDelegatedCandidate (c : Candidate) (d : Delegation) (leaderKey : PublicKey) :
    Except String Unit :=
  if d.collatorKey.length ≠ ed25519PublicKeySize then
    .error "simplex: delegated candidate collator key is invalid"
  else if !cfg.verifyDelegationSignature leaderKey (c.id.slot - c.id.slot % cfg.spw)
      (cfg.keyNodeIDShort d.collatorKey) d.signature then
    .error "simplex: delegation signature is not valid"
  else if !cfg.verifyCandidateSignature d.collatorKey c.id c.signature then
    .error "simplex: delegated candidate signature is not valid"
  else .ok ()

/-- The admission part of `SubmitCandidate`: the id is recomputed from the hash data, the
source must be the scheduled leader, and the leader's or its delegate's signature must hold. -/
def checkCandidate (c : Candidate) : Except String Candidate :=
  match c.validateShape with
  | .error e => .error e
  | .ok () =>
    let cc := { c with id := c.computeID cfg.sha256 c.id.slot }
    let leader := cfg.expectedLeader cc.id.slot
    match cfg.validators[leader.toNat]? with
    | none =>
      let s := cc.id.slot
      .error s!"simplex: leader schedule returned out-of-range validator {leader} for slot {s}"
    | some validator =>
      if cc.leader ≠ leader then
        let source := cc.leader
        .error s!"simplex: candidate source {source} does not match expected leader {leader}"
      else
        match cc.delegation with
        | some d =>
          match cfg.verifyDelegatedCandidate cc d validator.publicKey with
          | .error e => .error e
          | .ok () => .ok cc
        | none =>
          if cfg.verifyCandidateSignature validator.publicKey cc.id cc.signature then .ok cc
          else .error "simplex: candidate signature is not valid"

/-- What an admitted candidate has been checked for. -/
structure Admitted (c : Candidate) : Prop where
  shape : c.parent.defined = true → c.parent.id.slot < c.id.slot
  identity : c.id.hash = cfg.sha256 c.hashData
  scheduled : c.leader = cfg.expectedLeader c.id.slot
  authority : ∃ validator, cfg.validators[c.leader.toNat]? = some validator ∧
    match c.delegation with
    | some d => cfg.verifyDelegatedCandidate c d validator.publicKey = .ok ()
    | none => cfg.verifyCandidateSignature validator.publicKey c.id c.signature = true

theorem checkCandidate_admitted {cc : Candidate}
    (h : cfg.checkCandidate c = .ok cc) : cfg.Admitted cc := by
  unfold checkCandidate at h
  split at h
  · cases h
  next shape =>
    dsimp only at h
    split at h
    · cases h
    next validator found =>
      obtain ⟨source, h⟩ := guard_eq_ok.mp h
      have source := not_not.mp source
      have shape' := Candidate.validateShape_parent_lt shape
      split at h
      next d hd =>
        split at h
        · cases h
        next ok =>
          cases h
          exact ⟨shape', rfl, source, validator, by rw [source]; exact found, by
            dsimp only at hd ⊢; rw [hd]; exact ok⟩
      next hd =>
        split at h
        next ok =>
          cases h
          exact ⟨shape', rfl, source, validator, by rw [source]; exact found, by
            dsimp only at hd ⊢; rw [hd]; exact ok⟩
        · cases h

end Config

end Gton.Simplex
