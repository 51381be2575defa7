import Gton.Groups.Config

/-!
# Rosters are drawn by weight without putting back

Each validator of a shard is the one whose interval, on the line of those not yet chosen, holds
the position drawn. The masterchain's shuffle only reorders.
-/

namespace Gton.Groups

open Gton.Lib
open Gton.Lib.Weighted
open List

/-- Each index is the one whose interval, on the line of what is left, holds the position drawn. -/
def Samples (rng : Prng) : rng.State → Slots → List Nat → Prop
  | _, _, [] => True
  | state, s, i :: rest =>
    let (position, state) := rng.nextRanged state (remaining s)
    (∃ w, s[i]? = some (w, false)) ∧ Fenwick.sum (Fenwick.weightLeft s) 0 i ≤ position ∧
      position < Fenwick.sum (Fenwick.weightLeft s) 0 (i + 1) ∧
      Samples rng state (Weighted.take s i) rest

section Samples

variable {rng : Prng} {s : Slots} {ws : List Nat} {count : Nat}

theorem draws_samples (below : rng.Below) (h : Drawable ws s count) (state : rng.State) :
    Samples rng state s (draws rng count state s) := by
  induction count generalizing state s with
  | zero => trivial
  | succ count ih =>
    have lt := below state _ h.pos
    obtain ⟨w, item, -⟩ := h.item lt
    obtain ⟨low, high⟩ := Fenwick.locate_spec lt
    exact ⟨⟨w, item⟩, low, high, ih (h.next item) _⟩

theorem length_draws (state : rng.State) : (draws rng count state s).length = count := by
  induction count generalizing state s with
  | zero => rfl
  | succ count ih => exact congrArg (· + 1) (ih _)

theorem getElem?_take {i j w : Nat} (h : (Weighted.take s i)[j]? = some (w, false)) :
    j ≠ i ∧ s[j]? = some (w, false) := by
  induction s generalizing i j with
  | nil => cases h
  | cons x rest ih =>
    cases i with
    | zero =>
      cases j with
      | zero => cases h
      | succ j => exact ⟨by omega, h⟩
    | succ i =>
      cases j with
      | zero => exact ⟨by omega, h⟩
      | succ j =>
        obtain ⟨ne, there⟩ := ih h
        exact ⟨by omega, there⟩

theorem Samples.left {state : rng.State} {indices : List Nat} (h : Samples rng state s indices) :
    indices.Nodup ∧ ∀ i ∈ indices, ∃ w, s[i]? = some (w, false) := by
  induction indices generalizing state s with
  | nil => simp
  | cons i rest ih =>
    obtain ⟨item, -, -, later⟩ := h
    obtain ⟨nodup, left⟩ := ih later
    refine ⟨nodup_cons.mpr ⟨?_, nodup⟩, ?_⟩
    · intro again
      obtain ⟨w, there⟩ := left i again
      exact (getElem?_take there).1 rfl
    · intro j mem
      cases mem with
      | head => exact item
      | tail _ mem =>
        obtain ⟨w, there⟩ := left j mem
        exact ⟨w, (getElem?_take there).2⟩

end Samples

/-! ## The shuffle -/

theorem perm_set_append {l : List Nat} {j : Nat} (lt : j < l.length) (x : Nat) :
    (l.set j x ++ [l[j]]).Perm (l ++ [x]) := by
  induction l generalizing j with
  | nil => cases lt
  | cons y l ih =>
    cases j with
    | zero =>
      calc (x :: l ++ [y]).Perm (x :: y :: l) := (perm_append_singleton y l).cons x
        _ |>.Perm (y :: x :: l) := .swap y x l
        _ |>.Perm (y :: l ++ [x]) := (perm_append_singleton x l).symm.cons y
    | succ j => exact (ih (Nat.lt_of_succ_lt_succ lt)).cons y

theorem shuffle_round {indices : List Nat} {i j : Nat} (lt : i < indices.length) (le : j ≤ i)
    (h : (indices.take i).Perm (List.range i)) :
    (((indices.set i (indices.getD j 0)).set j i).take (i + 1)).Perm (List.range (i + 1)) := by
  have len : (indices.take i).length = i := by
    rw [length_take]
    omega
  have placed (x : Nat) : (indices.set i x).take (i + 1) = indices.take i ++ [x] := by
    rw [take_set, ← take_append_getElem lt, set_append_right _ _ (by omega), len]
    simp
  rw [take_set, placed, range_succ]
  refine .trans ?_ (h.append_right [i])
  rcases Nat.lt_or_ge j i with before | same
  · have there : indices.getD j 0 = (indices.take i)[j] := by
      rw [getD_eq_getElem _ _ (by omega), getElem_take]
    rw [set_append_left _ _ (by omega), there]
    exact perm_set_append (by omega) i
  · obtain rfl : j = i := by omega
    rw [set_append_right _ _ (by omega), len]
    simp

/-- Before round `i` the first `i` places hold the first `i` indices. -/
theorem shuffle_perm {rng : Prng} (below : rng.Below) {left i : Nat} (state : rng.State)
    {indices : List Nat} (length : indices.length = i + left)
    (h : (indices.take i).Perm (List.range i)) :
    (shuffle rng left i state indices).Perm (List.range (i + left)) := by
  induction left generalizing i state indices with
  | zero =>
    rwa [take_of_length_le (by omega)] at h
  | succ left ih =>
    have le := Nat.le_of_lt_succ (below state (i + 1) (Nat.succ_pos i))
    have round := shuffle_round (by omega) le h
    have next := ih (rng.nextRanged state (i + 1)).2 (by simp; omega) round
    rwa [Nat.add_right_comm] at next

/-! ## The rosters of a parsed set -/

def shardRosterCount (input : RosterInput) : Nat :=
  min input.catchain.shardValidators.toNat input.set.validators.length

/-- `ton.NewValidatorSetPRNG` for the session. -/
def RosterInput.state (input : RosterInput) (rng : Prng) : rng.State :=
  rng.seed input.shard input.workchain input.catchainSeqno

/-- `newWeightFenwick`. -/
def ValidatorSet.tree (set : ValidatorSet) : Nat → Nat :=
  Fenwick.build set.validators.length fun i => (set.validators.getD i default).weight

/-- Both ways of drawing a shard's validators sample them by weight, and the masterchain's are
its main validators in some order. -/
theorem rosters_sample_by_weight (rng : Prng) (below : rng.Below) (hash : Hash → Hash)
    (raw : RawValidatorSet) (input : RosterInput)
    (parsed : parseValidatorSet hash raw = .ok input.set) :
    (∃ indices : List Nat, indices.length = shardRosterCount input ∧ indices.Nodup ∧
      (∀ i ∈ indices, i < input.set.validators.length) ∧
      Samples rng (input.state rng) (fresh input.set.weights) indices ∧
      holeIndices rng input.set (shardRosterCount input) (input.state rng)
        input.set.totalWeight [] = indices ∧
      fenwickIndices rng input.set (shardRosterCount input) (input.state rng)
        input.set.totalWeight input.set.tree = indices ∧
      drawWithHoles rng input.set (shardRosterCount input) (input.state rng)
        input.set.totalWeight [] = input.set.roster indices ∧
      drawWithFenwick rng input.set (shardRosterCount input) (input.state rng)
        input.set.totalWeight input.set.tree = input.set.roster indices ∧
      selectShardRoster rng input = input.set.roster indices ∧
      ((selectShardRoster rng input).map (·.publicKey)).Nodup) ∧
    (input.catchain.shuffleMasterchain = true →
      (shuffle rng input.set.main 0 (input.state rng) (List.replicate input.set.main 0)).Perm
        (List.range input.set.main) ∧ input.set.main ≤ input.set.validators.length ∧
      (selectMasterchainRoster rng input).Perm (input.set.validators.take input.set.main)) := by
  obtain ⟨⟨line, -⟩, keys, main⟩ := parseValidatorSet_spec parsed
  have le : shardRosterCount input ≤ input.set.validators.length := Nat.min_le_right _ _
  have h : Drawable input.set.weights (fresh input.set.weights) (shardRosterCount input) :=
    .of_fresh line.positive (by rwa [length_map])
  have samples := draws_samples below h (input.state rng)
  obtain ⟨nodup, left⟩ := samples.left
  have inside : ∀ i ∈ draws rng (shardRosterCount input) (input.state rng)
      (fresh input.set.weights), i < input.set.validators.length := by
    intro i mem
    obtain ⟨w, item⟩ := left i mem
    simpa [fresh] using (List.getElem?_eq_some_iff.mp item).1
  have holes := holeIndices_fresh below line (input.state rng) le
  have tree := fenwickIndices_fresh below line (input.state rng) le
  constructor
  · refine ⟨_, length_draws _, nodup, inside, samples, holes, tree, ?_, ?_,
      selectShardRoster_eq below line, ?_⟩
    · rw [drawWithHoles_eq, holes]
    · rw [drawWithFenwick_eq]
      exact congrArg _ tree
    · rw [selectShardRoster_eq below line, ValidatorSet.roster, map_map]
      apply List.Nodup.map_on _ nodup
      intro i mi j mj same
      have hi := inside i mi
      have hj := inside j mj
      simp only [Function.comp_apply, getD_eq_getElem _ _ hi, getD_eq_getElem _ _ hj,
        Validator.drawn] at same
      have hi' : i < (input.set.validators.map (·.publicKey)).length := by simpa using hi
      have hj' : j < (input.set.validators.map (·.publicKey)).length := by simpa using hj
      have keyed : (input.set.validators.map (·.publicKey))[i] =
          (input.set.validators.map (·.publicKey))[j] := by simpa using same
      exact keys.getElem_inj_iff.mp keyed
  · intro shuffled
    have order := @shuffle_perm rng below input.set.main 0 (input.state rng)
      (List.replicate input.set.main 0) (by simp) (by simp)
    rw [Nat.zero_add] at order
    refine ⟨order, main, ?_⟩
    unfold selectMasterchainRoster
    rw [shuffled, Nat.min_eq_left main]
    refine (order.map _).trans (.of_eq ?_)
    apply ext_getElem
    · simp [main]
    · intro i lt _
      rw [length_map, length_range] at lt
      rw [getElem_map, getElem_range, getElem_take,
        getD_eq_getElem _ _ (by omega)]

/-- A generator that counts. -/
def countingPrng : Prng where
  State := Nat
  seed _ _ seqno := seqno.toNat
  nextRanged s n := (s % n, s + 1)

def threeValidators : RawValidatorSet :=
  ⟨0, 3, 2, some 10, [(0, ⟨1, 5, none⟩), (1, ⟨2, 3, none⟩), (2, ⟨3, 2, none⟩)]⟩

/-- Two of three validators are drawn. -/
def drawTwo : RosterInput where
  set := ⟨0, 2, 10, [⟨1, 1, 0, 5⟩, ⟨2, 2, 0, 3⟩, ⟨3, 3, 0, 2⟩], [0, 5, 8]⟩
  workchain := 0
  shard := 0x8000000000000000
  catchainSeqno := 6
  catchain := ⟨200, 200, 3000, 2, true⟩

theorem drawTwo_sampled : parseValidatorSet id threeValidators = .ok drawTwo.set ∧
    drawTwo.catchain.shuffleMasterchain = true ∧
    (∃ indices, indices.length = 2 ∧ indices.Nodup ∧
      selectShardRoster countingPrng drawTwo = drawTwo.set.roster indices) ∧
    (selectMasterchainRoster countingPrng drawTwo).Perm (drawTwo.set.validators.take 2) := by
  have parsed : parseValidatorSet id threeValidators = .ok drawTwo.set := rfl
  obtain ⟨⟨indices, length, nodup, -, -, -, -, -, -, roster, -⟩, masterchain⟩ :=
    rosters_sample_by_weight countingPrng (fun _ _ => Nat.mod_lt _) id threeValidators
      drawTwo parsed
  exact ⟨parsed, rfl, ⟨indices, length, nodup, roster⟩, (masterchain rfl).2.2⟩

/-- A decoder by the schema of the parameter. -/
def decodeCatchain : Option RawCatchain → Except RosterError CatchainSchema
  | some (.v1 mc shard lifetime validators) => .ok (.v1 mc shard lifetime validators)
  | some (.v2 0 shuffle mc shard lifetime validators) =>
    .ok (.v2 shuffle mc shard lifetime validators)
  | _ => .error .paramAbsent

theorem drawTwo_checked :
    validatorsForBlockWithCatchainConfig countingPrng 0 0x8000000000000000 threeValidators 6
      (resolveShardTopCatchainConfig decodeCatchain (some (.v2 0 true 200 200 3000 2))) =
        .ok [⟨2, 1, 0⟩, ⟨1, 1, 0⟩] := by
  have decodes : DecodesCatchain decodeCatchain :=
    ⟨⟨.paramAbsent, rfl⟩, fun _ _ _ _ => rfl, fun _ _ _ _ _ => rfl⟩
  have parsed : parseValidatorSet id threeValidators = .ok drawTwo.set := rfl
  have read : parseCatchainConfig (some (.v2 0 true 200 200 3000 2)) = .ok drawTwo.catchain := rfl
  have below : countingPrng.Below := fun _ _ => Nat.mod_lt _
  exact validatorsForBlock_eq below decodes parsed read

end Gton.Groups
