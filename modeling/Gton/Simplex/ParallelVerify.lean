import Gton.Lib.Quorum
import Gton.Simplex.CertificateVerify
import Gton.Simplex.FanOut

/-!
# Serial and parallel certificate verification

`verifyCertificatePayload` checks the signatures one by one, or fans them out over workers. Both
ways give the same verdict and name the same validator.
-/

namespace Gton.Simplex

open List

def parallelVerifyMinSigs : Nat := 8

section Payload

variable {P : Type} (validators : List Validator) (threshold : UInt64)
  (ed25519Verify : PublicKey → P → Signature → Bool) (payload : P)

/-- The closure `verify`. The index is in range once the index pass accepted it. -/
def signatureVerifies (s : VoteSignature) : Bool :=
  match validators[s.validatorIndex]? with
  | none => false
  | some validator =>
    s.signature.length == ed25519SignatureSize &&
      ed25519Verify validator.publicKey payload s.signature

/-- Everything in front of the signature pass. -/
def checkQuorum (sigs : List VoteSignature) : Except String Unit :=
  if sigs.length > validators.length then .error "too many signatures in certificate"
  else
    match certificateWeight validators [] 0 sigs with
    | .error e => .error e
    | .ok weight =>
      if weight < threshold then .error "not enough signatures in certificate" else .ok ()

def invalidSignature (s : VoteSignature) : String :=
  s!"invalid vote signature for validator {s.validatorIndex}"

/-- The signature pass, one by one. -/
def verifySerial (valid : VoteSignature → Bool) : List VoteSignature → Except String Unit
  | [] => .ok ()
  | s :: rest => if valid s then verifySerial valid rest else .error (invalidSignature s)

/-- What the body of the fan-out returns for an index: the index itself when its signature is
bad, and the number of signatures otherwise. -/
def fanOutBody (valid : VoteSignature → Bool) (sigs : List VoteSignature) (i : Nat) : Nat :=
  if (sigs[i]?).any fun s => !valid s then i else sigs.length

/-- The verdict after `verifyFanOut` returned `bad`. -/
def verdictOf (sigs : List VoteSignature) (bad : Nat) : Except String Unit :=
  match sigs[bad]? with
  | some s => .error (invalidSignature s)
  | none => .ok ()

/-- The verdicts of `verifyCertificatePayload` on `procs` processors. -/
inductive PayloadVerdict (procs : Nat) (sigs : List VoteSignature) : Except String Unit → Prop where
  | refused {e : String} (quorum : checkQuorum validators threshold sigs = .error e) :
      PayloadVerdict procs sigs (.error e)
  | serial (quorum : checkQuorum validators threshold sigs = .ok ())
      (few : sigs.length < parallelVerifyMinSigs ∨ procs < 2) :
      PayloadVerdict procs sigs
        (verifySerial (signatureVerifies validators ed25519Verify payload) sigs)
  | parallel {bad : Nat} (quorum : checkQuorum validators threshold sigs = .ok ())
      (many : ¬ (sigs.length < parallelVerifyMinSigs ∨ procs < 2))
      (returned : FanOut.Returns (min procs sigs.length) sigs.length
        (fanOutBody (signatureVerifies validators ed25519Verify payload) sigs) bad) :
      PayloadVerdict procs sigs (verdictOf sigs bad)

/-- `verifyCertificatePayload` with its serial signature pass. -/
def verifyPayload (sigs : List VoteSignature) : Except String Unit :=
  match checkQuorum validators threshold sigs with
  | .error e => .error e
  | .ok () => verifySerial (signatureVerifies validators ed25519Verify payload) sigs

end Payload

/-- What the engine calls is the serial verification of the vote's payload. -/
theorem Config.verifyCertificatePayload_eq (cfg : Config) (cert : Certificate) :
    cfg.verifyCertificatePayload cert = verifyPayload cfg.validators cfg.threshold
      cfg.ed25519Verify (cfg.votePayload cert.vote) cert.signatures := by
  have serial (sigs : List VoteSignature) : cfg.verifySignatures cert.vote sigs =
      verifySerial (signatureVerifies cfg.validators cfg.ed25519Verify (cfg.votePayload cert.vote))
        sigs := by
    induction sigs with
    | nil => rfl
    | cons s rest ih =>
      unfold verifySignatures verifySerial
      rw [ih]
      rfl
  unfold verifyCertificatePayload verifyPayload checkQuorum
  split
  · rfl
  · cases certificateWeight cfg.validators [] 0 cert.signatures with
    | error e => rfl
    | ok weight =>
      dsimp only
      split
      · rfl
      · exact serial _

/-! ## The signature pass -/

variable {procs : Nat} {validators : List Validator} {P : Type} {payload : P}

section Signatures

variable {valid : VoteSignature → Bool} {sigs : List VoteSignature}

theorem verifySerial_eq : verifySerial valid sigs =
    verdictOf sigs (sigs.findIdx fun s => !valid s) := by
  induction sigs with
  | nil => rfl
  | cons s rest ih =>
    unfold verifySerial
    rw [findIdx_cons]
    cases good : valid s with
    | true =>
      rw [if_pos rfl, ih]
      rfl
    | false => rfl

theorem verifySerial_ok_iff : verifySerial valid sigs = .ok () ↔ ∀ s ∈ sigs, valid s = true := by
  induction sigs with
  | nil => simp [verifySerial]
  | cons s rest ih =>
    unfold verifySerial
    rw [forall_mem_cons, ← ih]
    cases valid s <;> simp

theorem fanOut_returns {bound : Nat} (cores : 0 < procs) :
    FanOut.Returns (min procs sigs.length) sigs.length (fanOutBody valid sigs) bound ↔
      bound = sigs.findIdx fun s => !valid s := by
  have workers : 0 < sigs.length → 0 < min procs sigs.length := fun some => by omega
  have only {bound : Nat} (h : FanOut.Returns (min procs sigs.length) sigs.length
      (fanOutBody valid sigs) bound) : bound = sigs.findIdx fun s => !valid s := by
    have least :=
      @FanOut.Returns.least _ _ (fun i => (sigs[i]?).any fun s => !valid s) bound workers
    obtain ⟨capped, good, bad⟩ := least h
    rcases Nat.lt_or_eq_of_le capped with inside | all
    · symm
      rw [findIdx_eq inside]
      refine ⟨by simpa [inside] using bad inside, fun j before => ?_⟩
      simpa [Nat.lt_trans before inside] using good j before
    · rw [all, eq_comm, findIdx_eq_length]
      intro s mem
      obtain ⟨i, inside, rfl⟩ := getElem_of_mem mem
      simpa [inside] using good i (all ▸ inside)
  constructor
  · exact only
  · rintro rfl
    obtain ⟨bound, returned⟩ :=
      FanOut.exists_returns (min procs sigs.length) sigs.length (fanOutBody valid sigs)
    rw [← only returned]
    exact returned

end Signatures

/-! ## The quorum -/

section Quorum

variable {validators : List Validator} {sigs : List VoteSignature}

theorem totalWeight_eq_sum (validators : List Validator) : totalWeight validators =
    ∑ i ∈ Finset.range validators.length,
      ((validators[i]?).map fun v => v.weight.toNat).getD 0 := by
  unfold totalWeight
  induction validators with
  | nil => rfl
  | cons v rest ih =>
    rw [length_cons, Finset.sum_range_succ', map_cons, sum_cons, ih, Nat.add_comm]
    simp

section

variable (ranges : ∀ s ∈ sigs, s.validatorIndex < validators.length)
  (nodup : (sigs.map VoteSignature.validatorIndex).Nodup)
include ranges nodup

omit nodup in
theorem signers_subset :
    (sigs.map VoteSignature.validatorIndex).toFinset ⊆ Finset.range validators.length := by
  intro i mem
  obtain ⟨s, hs, rfl⟩ := mem_map.mp (mem_toFinset.mp mem)
  exact Finset.mem_range.mpr (ranges s hs)

theorem signedWeight_le : signedWeight validators sigs ≤ totalWeight validators := by
  have sum := sum_toFinset (fun i => ((validators[i]?).map fun v => v.weight.toNat).getD 0) nodup
  rw [map_map] at sum
  calc signedWeight validators sigs
    _ = _ := sum.symm
    _ ≤ _ := Finset.sum_le_sum_of_subset (signers_subset ranges)
    _ = totalWeight validators := (totalWeight_eq_sum validators).symm

theorem length_le_of_nodup : sigs.length ≤ validators.length := by
  have card := Finset.card_le_card (signers_subset ranges)
  rw [toFinset_card_of_nodup nodup, Finset.card_range, length_map] at card
  exact card

end

theorem checkQuorum_ok_iff {threshold : UInt64} :
    checkQuorum validators threshold sigs = .ok () ↔
      (∀ s ∈ sigs, s.validatorIndex < validators.length) ∧
      (sigs.map VoteSignature.validatorIndex).Nodup ∧
      threshold.toNat ≤ signedWeight validators sigs % 2 ^ 64 := by
  have summed {w : UInt64} : certificateWeight validators [] 0 sigs = .ok w ↔
      (∀ s ∈ sigs, s.validatorIndex < validators.length) ∧
      (sigs.map VoteSignature.validatorIndex).Nodup ∧
      w.toNat = signedWeight validators sigs % 2 ^ 64 := by
    rw [certificateWeight_ok_iff, UInt64.toNat_zero, Nat.zero_add]
    simp
  unfold checkQuorum
  constructor
  · intro accepted
    split at accepted
    · cases accepted
    · split at accepted
      · cases accepted
      next w weight =>
        obtain ⟨ranges, nodup, sum⟩ := summed.mp weight
        split at accepted
        · cases accepted
        next enough =>
          exact ⟨ranges, nodup, sum ▸ UInt64.le_iff_toNat_le.mp (UInt64.not_lt.mp enough)⟩
  · rintro ⟨ranges, nodup, enough⟩
    have sum : (UInt64.ofNat (signedWeight validators sigs)).toNat =
        signedWeight validators sigs % 2 ^ 64 := UInt64.toNat_ofNat'
    rw [if_neg (Nat.not_lt.mpr (length_le_of_nodup ranges nodup)),
      summed.mpr ⟨ranges, nodup, sum⟩]
    dsimp only
    rw [if_neg]
    rw [UInt64.not_lt, UInt64.le_iff_toNat_le, sum]
    exact enough

theorem exists_signers (L : Finset Nat) (known : L ⊆ Finset.range validators.length) :
    ∃ sigs : List VoteSignature, (∀ s ∈ sigs, s.validatorIndex < validators.length) ∧
      (sigs.map VoteSignature.validatorIndex).Nodup ∧
      (∀ s ∈ sigs, s.signature.length = ed25519SignatureSize) ∧
      signedWeight validators sigs =
        ∑ i ∈ L, ((validators[i]?).map fun v => v.weight.toNat).getD 0 := by
  refine ⟨L.toList.map fun i => ⟨i, List.replicate ed25519SignatureSize 0⟩, ?_, ?_, ?_, ?_⟩
  · intro s mem
    obtain ⟨i, hi, rfl⟩ := mem_map.mp mem
    exact Finset.mem_range.mp (known (Finset.mem_toList.mp hi))
  · simpa [Function.comp_def] using L.nodup_toList
  · intro s mem
    obtain ⟨i, -, rfl⟩ := mem_map.mp mem
    exact length_replicate
  · rw [signedWeight, map_map]
    exact Finset.sum_map_toList L _

/-- A roster whose weights wrap has validators that the wrapped threshold takes for a quorum, and
that are none: without the heaviest validator the others still reach it. -/
theorem exists_light_quorum {total : UInt64}
    (admitted : totalValidatorWeight validators = .ok total)
    (wraps : 2 ^ 64 ≤ totalWeight validators) :
    ∃ L ⊆ Finset.range validators.length,
      let weight := ∑ i ∈ L, ((validators[i]?).map fun v => v.weight.toNat).getD 0
      (total * 2 / 3 + 1).toNat ≤ weight % 2 ^ 64 ∧
        weight < totalWeight validators * 2 / 3 + 1 := by
  let w (i : Nat) : Nat := ((validators[i]?).map fun v => v.weight.toNat).getD 0
  obtain ⟨sum, small, threshold⟩ := total_of_admitted admitted
  have all : totalWeight validators = ∑ i ∈ Finset.range validators.length, w i :=
    totalWeight_eq_sum validators
  have word (i : Nat) : w i < 2 ^ 64 := by
    change ((validators[i]?).map fun v => v.weight.toNat).getD 0 < 2 ^ 64
    cases validators[i]? with
    | none => decide
    | some v => exact v.weight.toNat_lt
  have some_ : (Finset.range validators.length).Nonempty := by
    rw [Finset.nonempty_iff_ne_empty]
    intro none
    rw [none, Finset.sum_empty] at all
    omega
  obtain ⟨top, member, heaviest⟩ := Finset.exists_max_image _ w some_
  have rest := Finset.sum_erase_add _ w member
  have := word top
  have enough : total.toNat * 2 / 3 + 1 ≤
      ∑ i ∈ (Finset.range validators.length).erase top, w i := by omega
  obtain ⟨L, sub, reach, light⟩ := Quorum.exists_light_subset (Nat.succ_pos _) enough
  have bound : ∑ i ∈ L, w i < totalWeight validators * 2 / 3 + 1 ∧ ∑ i ∈ L, w i < 2 ^ 64 := by
    rcases light with ⟨i, rfl⟩ | light
    · have mem := sub (Finset.mem_singleton_self i)
      have le := heaviest i (Finset.mem_of_mem_erase mem)
      have part : w i ≤ ∑ j ∈ (Finset.range validators.length).erase top, w j :=
        Finset.single_le_sum (fun _ _ => Nat.zero_le _) mem
      have := word i
      rw [Finset.sum_singleton]
      omega
    · omega
  refine ⟨L, sub.trans (Finset.erase_subset _ _), ?_, bound.1⟩
  rw [threshold, Nat.mod_eq_of_lt bound.2]
  exact reach

end Quorum

/-! ## The verdict -/

theorem payloadVerdict_iff {threshold : UInt64} {ed25519Verify : PublicKey → P → Signature → Bool}
    (cores : 0 < procs) {sigs : List VoteSignature} {r : Except String Unit} :
    PayloadVerdict validators threshold ed25519Verify payload procs sigs r ↔
      r = verifyPayload validators threshold ed25519Verify payload sigs := by
  unfold verifyPayload
  constructor
  · intro verdict
    cases verdict with
    | refused quorum => rw [quorum]
    | serial quorum => rw [quorum]
    | parallel quorum _ returned =>
      rw [quorum, (fanOut_returns cores).mp returned]
      exact verifySerial_eq.symm
  · rintro rfl
    cases quorum : checkQuorum validators threshold sigs with
    | error e => exact .refused quorum
    | ok =>
      by_cases few : sigs.length < parallelVerifyMinSigs ∨ procs < 2
      · exact .serial quorum few
      · rw [verifySerial_eq]
        exact .parallel quorum few ((fanOut_returns cores).mpr rfl)

theorem signatureVerifies_iff
    {ed25519Verify : PublicKey → P → Signature → Bool} {s : VoteSignature} :
    signatureVerifies validators ed25519Verify payload s = true ↔
      ∃ v, validators[s.validatorIndex]? = some v ∧ s.signature.length = ed25519SignatureSize ∧
        ed25519Verify v.publicKey payload s.signature = true := by
  unfold signatureVerifies
  cases validators[s.validatorIndex]? with
  | none => simp
  | some v => simp

/-- A certificate whose signers are distinct validators, weigh the threshold and all signed. -/
structure GoodCertificate (validators : List Validator) (threshold : Nat)
    (ed25519Verify : PublicKey → P → Signature → Bool) (payload : P) (sigs : List VoteSignature) :
    Prop where
  ranges : ∀ s ∈ sigs, s.validatorIndex < validators.length
  distinct : (sigs.map VoteSignature.validatorIndex).Nodup
  weight : threshold ≤ signedWeight validators sigs
  signed : ∀ s ∈ sigs, ∃ v, validators[s.validatorIndex]? = some v ∧
    s.signature.length = ed25519SignatureSize ∧
    ed25519Verify v.publicKey payload s.signature = true

theorem verifyPayload_ok_iff {threshold : UInt64}
    {ed25519Verify : PublicKey → P → Signature → Bool} {sigs : List VoteSignature} :
    verifyPayload validators threshold ed25519Verify payload sigs = .ok () ↔
      checkQuorum validators threshold sigs = .ok () ∧ ∀ s ∈ sigs, ∃ v,
        validators[s.validatorIndex]? = some v ∧ s.signature.length = ed25519SignatureSize ∧
        ed25519Verify v.publicKey payload s.signature = true := by
  unfold verifyPayload
  cases checkQuorum validators threshold sigs with
  | error e => simp
  | ok =>
    rw [verifySerial_ok_iff]
    simp only [signatureVerifies_iff, true_and]

/-- On an admitted roster a certificate is accepted exactly when it is good by exact weights, if
and only if the weights of the roster do not wrap. In every interleaving the workers come to an
end with the index of the first bad signature, so the parallel verdict is the serial one, and the
engine's. -/
theorem certificate_payload_verdict {P : Type} {validators : List Validator} {total : UInt64}
    (admitted : totalValidatorWeight validators = .ok total) (payload : P) {procs : Nat}
    (cores : 0 < procs) :
    ((∀ ed25519Verify sigs,
        verifyPayload validators (total * 2 / 3 + 1) ed25519Verify payload sigs = .ok () ↔
          GoodCertificate validators (totalWeight validators * 2 / 3 + 1) ed25519Verify payload
            sigs) ↔ totalWeight validators < 2 ^ 64) ∧
    (totalWeight validators < 2 ^ 64 →
      (total * 2 / 3 + 1).toNat = totalWeight validators * 2 / 3 + 1) ∧
    (∀ cfg : Config, cfg.validators = validators → ∀ cert, cfg.verifyCertificatePayload cert =
      verifyPayload validators (total * 2 / 3 + 1) cfg.ed25519Verify (cfg.votePayload cert.vote)
        cert.signatures) ∧
    ∀ ed25519Verify sigs,
      (∀ r, PayloadVerdict validators (total * 2 / 3 + 1) ed25519Verify payload procs sigs r ↔
        r = verifyPayload validators (total * 2 / 3 + 1) ed25519Verify payload sigs) ∧
      ∀ valid : VoteSignature → Bool,
        (∀ schedule, FanOut.Busy sigs.length (fanOutBody valid sigs)
            (FanOut.start (min procs sigs.length) sigs.length) schedule → schedule.length ≤
          (FanOut.start (min procs sigs.length) sigs.length).measure sigs.length) ∧
        ∀ bound, FanOut.Returns (min procs sigs.length) sigs.length (fanOutBody valid sigs) bound ↔
          bound = sigs.findIdx fun s => !valid s := by
  refine ⟨⟨fun exact_ => ?_, fun fits ed25519Verify sigs => ?_⟩, threshold_of_total admitted, ?_,
    fun ed25519Verify sigs => ⟨fun r => payloadVerdict_iff cores, fun valid => ?_⟩⟩
  · by_contra wraps
    obtain ⟨L, known, enough, light⟩ := exists_light_quorum admitted (Nat.not_lt.mp wraps)
    obtain ⟨sigs, ranges, distinct, sizes, weight⟩ := exists_signers L known
    have accepted : verifyPayload validators (total * 2 / 3 + 1) (fun _ _ _ => true) payload sigs =
        .ok () := by
      rw [verifyPayload_ok_iff, checkQuorum_ok_iff, weight]
      exact ⟨⟨ranges, distinct, enough⟩,
        fun s mem => ⟨_, getElem?_eq_getElem (ranges s mem), sizes s mem, rfl⟩⟩
    have heavy := ((exact_ _ sigs).mp accepted).weight
    omega
  · rw [verifyPayload_ok_iff, checkQuorum_ok_iff, threshold_of_total admitted fits]
    constructor
    · rintro ⟨⟨ranges, distinct, enough⟩, signed⟩
      exact ⟨ranges, distinct, enough.trans (Nat.mod_le _ _), signed⟩
    · rintro ⟨ranges, distinct, enough, signed⟩
      have le := signedWeight_le ranges distinct
      rw [Nat.mod_eq_of_lt (by omega)]
      exact ⟨⟨ranges, distinct, enough⟩, signed⟩
  · rintro cfg rfl cert
    rw [cfg.verifyCertificatePayload_eq, cfg.threshold_eq admitted]
  · exact ⟨fun schedule busy => (FanOut.start_sound _ _ _).busy busy,
      fun bound => fanOut_returns cores⟩

/-- Nine validators of weight 1, all of whom sign, the fifth one badly. -/
def nineValidators : List Validator := List.replicate 9 ⟨List.replicate 32 0, 1⟩

def nineSignatures : List VoteSignature :=
  (List.range 9).map fun i => ⟨i, (if i = 4 then 1 else 0) :: List.replicate 63 0⟩

def startsWithZero (_ : PublicKey) (_ : Unit) (sig : Signature) : Bool := sig.head? == some 0

/-- Three workers reject the certificate for the fifth validator. -/
theorem certificate_payload_verdict_nine :
    PayloadVerdict nineValidators 7 startsWithZero () 3 nineSignatures
        (.error "invalid vote signature for validator 4") ∧
      ∀ bound, FanOut.Returns 3 9
        (fanOutBody (signatureVerifies nineValidators startsWithZero ()) nineSignatures) bound →
          bound = 4 := by
  have admitted : totalValidatorWeight nineValidators = .ok 9 := rfl
  obtain ⟨-, -, -, parallel⟩ := certificate_payload_verdict admitted () (show 0 < 3 by decide)
  obtain ⟨verdict, interleavings⟩ := parallel startsWithZero nineSignatures
  exact ⟨(verdict _).mpr rfl, fun bound returned => ((interleavings _).2 bound).mp returned⟩

/-- Weights 5 and 2^64 - 5 pass for a total of 0. Both validators sign, and still they are not
enough. -/
theorem wrapped_quorum_is_rejected : let validators : List Validator :=
      [⟨List.replicate 32 0, 5⟩, ⟨List.replicate 32 1, 18446744073709551611⟩]
    let sigs : List VoteSignature := [⟨0, List.replicate 64 0⟩, ⟨1, List.replicate 64 0⟩]
    totalValidatorWeight validators = .ok 0 ∧
      (∀ s ∈ sigs, s.validatorIndex < validators.length) ∧
      (sigs.map VoteSignature.validatorIndex).Nodup ∧
      ((0 : UInt64) * 2 / 3 + 1).toNat ≤ signedWeight validators sigs ∧
      (∀ s ∈ sigs, signatureVerifies validators startsWithZero () s = true) ∧
      verifyPayload validators (0 * 2 / 3 + 1) startsWithZero () sigs =
        .error "not enough signatures in certificate" := by
  refine ⟨rfl, by decide, by decide, by decide +kernel, by decide, rfl⟩

end Gton.Simplex
