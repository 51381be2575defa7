import Gton.Lib.Fallible
import Gton.Simplex.Types

/-!
# Certificate verification

`verifyCertificatePayload` and the vote shape check in front of it. The signature pass is
the serial one; the parallel pass rejects at the same place.
-/

namespace Gton.Simplex

open Gton.Lib.Fallible
open List

/-! ## The weight of a roster -/

/-- The exact weight of a roster. -/
def totalWeight (validators : List Validator) : Nat :=
  (validators.map fun v => v.weight.toNat).sum

variable {validators : List Validator} {total acc : UInt64} {sigs : List VoteSignature}

theorem totalWeightFrom_mod {i : Nat} (h : totalWeightFrom acc i validators = .ok total) :
    total.toNat = (acc.toNat + totalWeight validators) % 2 ^ 64 := by
  induction validators generalizing acc i with
  | nil =>
    cases h
    exact (Nat.mod_eq_of_lt total.toNat_lt).symm
  | cons v rest ih =>
    unfold totalWeightFrom at h
    have split : totalWeight (v :: rest) = v.weight.toNat + totalWeight rest := sum_cons
    simp only [guard_eq_ok] at h
    rw [ih h.2.2.2, UInt64.toNat_add, Nat.mod_add_mod, split, Nat.add_assoc]

theorem totalWeightFrom_le {i : Nat}
    (h : totalWeightFrom acc i validators = .ok total) (le : acc ≤ maxTotalWeight) :
    total ≤ maxTotalWeight := by
  induction validators generalizing acc i with
  | nil =>
    cases h
    exact le
  | cons v rest ih =>
    unfold totalWeightFrom at h
    simp only [guard_eq_ok] at h
    obtain ⟨-, -, small, h⟩ := h
    exact ih h (UInt64.not_lt.mp small)

/-- The total the code computes, and its threshold, which does not wrap. -/
theorem total_of_admitted (admitted : totalValidatorWeight validators = .ok total) :
    total.toNat = totalWeight validators % 2 ^ 64 ∧ total.toNat ≤ 2 ^ 61 ∧
      (total * 2 / 3 + 1).toNat = total.toNat * 2 / 3 + 1 := by
  have sum := totalWeightFrom_mod admitted
  rw [UInt64.toNat_zero, Nat.zero_add] at sum
  have small : total.toNat ≤ 2 ^ 61 :=
    UInt64.le_iff_toNat_le.mp (totalWeightFrom_le admitted (by decide))
  refine ⟨sum, small, ?_⟩
  have double : (total * 2).toNat = total.toNat * 2 := by
    exact Nat.mod_eq_of_lt (by simp; omega)
  rw [UInt64.toNat_add, UInt64.toNat_div, double]
  exact Nat.mod_eq_of_lt (by simp; omega)

theorem threshold_of_total (admitted : totalValidatorWeight validators = .ok total)
    (exact_ : totalWeight validators < 2 ^ 64) :
    (total * 2 / 3 + 1).toNat = totalWeight validators * 2 / 3 + 1 := by
  obtain ⟨sum, -, threshold⟩ := total_of_admitted admitted
  rw [threshold, sum, Nat.mod_eq_of_lt exact_]

theorem Config.threshold_eq {cfg : Config}
    (admitted : totalValidatorWeight cfg.validators = .ok total) :
    cfg.threshold = total * 2 / 3 + 1 := by
  unfold Config.threshold
  rw [admitted]

/-! ## The passes over a certificate -/

def validateCertificateVote (v : Vote) : Except String Unit :=
  match v.kind with
  | .notarize | .finalize => .ok ()
  | .skip => if v.id.hash ≠ 0 then .error "simplex: skip vote has a candidate hash" else .ok ()

/-- The index pass: bounds, uniqueness and the `uint64` weight of the signers so far. -/
def certificateWeight (validators : List Validator) (voted : List Nat) (weight : UInt64) :
    List VoteSignature → Except String UInt64
  | [] => .ok weight
  | s :: rest =>
    let i := s.validatorIndex
    match validators[i]? with
    | none => .error s!"invalid validator index {i} in certificate"
    | some validator =>
      if i ∈ voted then .error s!"duplicate validator index {i} in certificate"
      else certificateWeight validators (i :: voted) (weight + validator.weight) rest

/-- The exact weight behind some signatures; an index out of range has none. -/
def signedWeight (validators : List Validator) (sigs : List VoteSignature) : Nat :=
  (sigs.map fun s => ((validators[s.validatorIndex]?).map fun v => v.weight.toNat).getD 0).sum

/-- The index pass accepts distinct indices in range, and sums up their weights modulo 2^64. -/
theorem certificateWeight_ok_iff {voted : List Nat} {w : UInt64} :
    certificateWeight validators voted acc sigs = .ok w ↔
      (∀ s ∈ sigs, s.validatorIndex < validators.length ∧ s.validatorIndex ∉ voted) ∧
        (sigs.map VoteSignature.validatorIndex).Nodup ∧
        w.toNat = (acc.toNat + signedWeight validators sigs) % 2 ^ 64 := by
  induction sigs generalizing voted acc with
  | nil =>
    have fits : acc.toNat % 2 ^ 64 = acc.toNat := Nat.mod_eq_of_lt acc.toNat_lt
    simp only [certificateWeight, signedWeight, map_nil, sum_nil, Nat.add_zero, fits]
    constructor
    · rintro ⟨rfl⟩
      simp
    · rintro ⟨-, -, same⟩
      rw [UInt64.toNat_inj.mp same]
  | cons s rest ih =>
    unfold certificateWeight
    dsimp only
    split
    next absent =>
      have out := List.getElem?_eq_none_iff.mp absent
      constructor
      · rintro ⟨⟩
      · rintro ⟨ranges, -, -⟩
        have := (ranges s mem_cons_self).1
        omega
    next validator found =>
      have inRange := (List.getElem?_eq_some_iff.mp found).1
      have here : signedWeight validators (s :: rest) =
          validator.weight.toNat + signedWeight validators rest := by
        simp [signedWeight, found]
      split
      next again =>
        constructor
        · rintro ⟨⟩
        · rintro ⟨ranges, -, -⟩
          exact absurd again (ranges s mem_cons_self).2
      next fresh =>
        rw [ih, here, UInt64.toNat_add, map_cons, nodup_cons]
        have sum : ((acc.toNat + validator.weight.toNat) % 2 ^ 64 + signedWeight validators rest) %
            2 ^ 64 =
            (acc.toNat + (validator.weight.toNat + signedWeight validators rest)) % 2 ^ 64 := by
          rw [Nat.mod_add_mod, Nat.add_assoc]
        rw [sum]
        constructor
        · rintro ⟨ranges, nodup, same⟩
          refine ⟨forall_mem_cons.mpr ⟨⟨inRange, fresh⟩, fun t ht => ?_⟩, ⟨?_, nodup⟩, same⟩
          · exact ⟨(ranges t ht).1, fun h => (ranges t ht).2 (mem_cons_of_mem _ h)⟩
          · intro mem
            obtain ⟨t, ht, eq⟩ := mem_map.mp mem
            exact (ranges t ht).2 (eq ▸ mem_cons_self)
        · rintro ⟨ranges, ⟨distinct, nodup⟩, same⟩
          refine ⟨fun t ht => ?_, nodup, same⟩
          have known := ranges t (mem_cons_of_mem _ ht)
          refine ⟨known.1, fun h => ?_⟩
          rcases mem_cons.mp h with eq | old
          · exact distinct (eq ▸ mem_map_of_mem ht)
          · exact known.2 old

namespace Config

variable (cfg : Config) {cert : Certificate}

/-- The signature pass: every entry is 64 bytes and verifies over the certified vote. -/
def verifySignatures (v : Vote) : List VoteSignature → Except String Unit
  | [] => .ok ()
  | s :: rest =>
    let i := s.validatorIndex
    if cfg.verifyVote i v s.signature then verifySignatures v rest
    else .error s!"invalid vote signature for validator {i}"

def verifyCertificatePayload (cert : Certificate) : Except String Unit :=
  if cert.signatures.length > cfg.validators.length then
    .error "too many signatures in certificate"
  else
    match certificateWeight cfg.validators [] 0 cert.signatures with
    | .error e => .error e
    | .ok weight =>
      if weight < cfg.threshold then .error "not enough signatures in certificate"
      else cfg.verifySignatures cert.vote cert.signatures

def verifyCertificate (cert : Certificate) : Except String Unit :=
  match validateCertificateVote cert.vote with
  | .error e => .error e
  | .ok () => cfg.verifyCertificatePayload cert

theorem verifySignatures_ok {v : Vote} :
    cfg.verifySignatures v sigs = .ok () ↔
      ∀ s ∈ sigs, cfg.verifyVote s.validatorIndex v s.signature = true := by
  induction sigs with
  | nil => simp [verifySignatures]
  | cons s rest ih =>
    unfold verifySignatures
    rw [forall_mem_cons, ← ih]
    dsimp only
    split
    next valid =>
      exact (and_iff_right valid).symm
    next wrong =>
      simp [wrong]

theorem verifyCertificatePayload_ok (h : cfg.verifyCertificatePayload cert = .ok ()) :
    ∃ w, certificateWeight cfg.validators [] 0 cert.signatures = .ok w ∧ cfg.threshold ≤ w ∧
      ∀ s ∈ cert.signatures, cfg.verifyVote s.validatorIndex cert.vote s.signature = true := by
  obtain ⟨-, h⟩ := guard_eq_ok.mp h
  split at h
  · cases h
  next w weight =>
    obtain ⟨enough, h⟩ := guard_eq_ok.mp h
    exact ⟨w, weight, UInt64.not_lt.mp enough, cfg.verifySignatures_ok.mp h⟩

section

variable (h : cfg.verifyCertificate cert = .ok ())
include h

theorem verifyCertificate_payload : cfg.verifyCertificatePayload cert = .ok () := by
  unfold verifyCertificate at h
  split at h
  · cases h
  · exact h

theorem verifyVote_of_verifyCertificate {s : VoteSignature} (mem : s ∈ cert.signatures) :
    cfg.verifyVote s.validatorIndex cert.vote s.signature = true := by
  obtain ⟨_, _, _, valid⟩ := cfg.verifyCertificatePayload_ok (cfg.verifyCertificate_payload h)
  exact valid s mem

theorem nodup_of_verifyCertificate : (cert.signatures.map VoteSignature.validatorIndex).Nodup := by
  obtain ⟨_, weight, _, _⟩ := cfg.verifyCertificatePayload_ok (cfg.verifyCertificate_payload h)
  exact (certificateWeight_ok_iff.mp weight).2.1

end

/-- `ValidateBootstrap` over the journaled certificates. -/
def validateBootstrap : List Certificate → Except String Unit
  | [] => .ok ()
  | cert :: rest =>
    match cfg.verifyCertificate cert with
    | .error _ => .error "simplex: corrupt journaled certificate"
    | .ok () => validateBootstrap rest

theorem validateBootstrap_ok {certs : List Certificate} :
    cfg.validateBootstrap certs = .ok () ↔ ∀ c ∈ certs, cfg.verifyCertificate c = .ok () := by
  induction certs with
  | nil => simp [validateBootstrap]
  | cons cert rest ih =>
    unfold validateBootstrap
    rw [forall_mem_cons, ← ih]
    cases cfg.verifyCertificate cert with
    | error e => simp
    | ok u => simp

end Config

end Gton.Simplex
