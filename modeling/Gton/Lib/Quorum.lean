import Mathlib.Algebra.BigOperators.Group.Finset.Piecewise
import Mathlib.Algebra.GroupWithZero.Nat
import Mathlib.Algebra.Order.BigOperators.Group.Finset
import Mathlib.Data.Finset.Max
import Mathlib.Data.Finset.Powerset

/-!
# Weighted quorums

Weights of sets of members, and the intersection of two quorums beyond a faulty minority.
-/

namespace Gton.Quorum

open Finset

variable {ι : Type*} (members : Finset ι) (w : ι → ℕ)

open scoped Classical in
/-- The weight of the members in `S`. -/
noncomputable def weight (S : Set ι) : ℕ := ∑ i ∈ members with i ∈ S, w i

variable {members w} {A B S : Set ι}

theorem weight_mono (h : ∀ i ∈ members, i ∈ A → i ∈ B) :
    weight members w A ≤ weight members w B := by
  classical
  refine sum_le_sum_of_subset fun i hi => ?_
  simp only [mem_filter] at hi ⊢
  exact ⟨hi.1, h i hi.1 hi.2⟩

theorem weight_le_total : weight members w A ≤ ∑ i ∈ members, w i := by
  classical
  exact sum_le_sum_of_subset (filter_subset _ _)

theorem weight_insert {i : ι} (mem : i ∈ members) (fresh : i ∉ A) :
    weight members w (insert i A) = weight members w A + w i := by
  classical
  have alone : w i = ∑ j ∈ members, if j = i then w j else 0 := by
    rw [sum_ite_eq', if_pos mem]
  unfold weight
  rw [sum_filter, sum_filter, alone, ← sum_add_distrib]
  refine sum_congr rfl fun j _ => ?_
  by_cases hj : j = i
  · subst hj
    simp [fresh]
  · simp [Set.mem_insert_iff, hj]

theorem weight_range {w : ℕ → ℕ} (n : ℕ) (p : ℕ → Bool) :
    weight (Finset.range n) w {i | p i = true} = (((List.range n).filter p).map w).sum := by
  classical
  unfold weight
  induction n with
  | zero => simp
  | succ n ih =>
    rw [sum_filter] at ih ⊢
    rw [sum_range_succ, ih, List.range_succ, List.filter_append, List.map_append,
      List.sum_append]
    by_cases h : p n = true <;> simp [h]

theorem weight_add_weight_le :
    weight members w A + weight members w B ≤
      (∑ i ∈ members, w i) + weight members w (A ∩ B) := by
  classical
  unfold weight
  rw [sum_filter, sum_filter, sum_filter, ← sum_add_distrib,
    ← sum_add_distrib]
  refine sum_le_sum fun i _ => ?_
  by_cases ha : i ∈ A <;> by_cases hb : i ∈ B <;> simp [ha, hb]

theorem exists_mem_of_weight_lt (h : weight members w S < weight members w A) :
    ∃ i ∈ members, i ∈ A ∧ i ∉ S := by
  by_contra none_outside
  push Not at none_outside
  exact absurd (weight_mono none_outside) (Nat.not_le.mpr h)

/-- Two quorums share a member outside the faulty set. -/
theorem quorums_share {q : ℕ} (ha : q ≤ weight members w A) (hb : q ≤ weight members w B)
    (large : (∑ i ∈ members, w i) + weight members w S < 2 * q) :
    ∃ i ∈ members, i ∈ A ∧ i ∈ B ∧ i ∉ S := by
  have overlap : weight members w A + weight members w B ≤
      (∑ i ∈ members, w i) + weight members w (A ∩ B) := weight_add_weight_le
  have heavy : weight members w S < weight members w (A ∩ B) := by omega
  obtain ⟨i, mem, ⟨ia, ib⟩, is⟩ := exists_mem_of_weight_lt heavy
  exact ⟨i, mem, ia, ib, is⟩

/-- A smallest subset that weighs `t` is a single member or lighter than `2 * t`. -/
theorem exists_light_subset {t : ℕ} (pos : 0 < t) (enough : t ≤ ∑ i ∈ members, w i) :
    ∃ L ⊆ members, t ≤ ∑ i ∈ L, w i ∧ ((∃ i, L = {i}) ∨ ∑ i ∈ L, w i < 2 * t) := by
  classical
  obtain ⟨L, heavy, least⟩ := exists_min_image
    (members.powerset.filter fun L => t ≤ ∑ i ∈ L, w i) card ⟨members, by simpa using enough⟩
  rw [mem_filter, mem_powerset] at heavy
  obtain ⟨sub, reach⟩ := heavy
  refine ⟨L, sub, reach, or_iff_not_imp_left.mpr fun several => ?_⟩
  have short (j : ι) (mem : j ∈ L) : ∑ i ∈ L.erase j, w i < t := by
    by_contra still
    have le := least (L.erase j) (by
      rw [mem_filter, mem_powerset]
      exact ⟨(erase_subset j L).trans sub, Nat.not_lt.mp still⟩)
    have := card_erase_lt_of_mem mem
    omega
  obtain ⟨i, mem⟩ : L.Nonempty := by
    rw [nonempty_iff_ne_empty]
    rintro rfl
    rw [sum_empty] at reach
    omega
  obtain ⟨j, other, ne⟩ : ∃ j ∈ L, j ≠ i := by
    by_contra alone
    push Not at alone
    exact several ⟨i, eq_singleton_iff_unique_mem.mpr ⟨mem, alone⟩⟩
  have part : w i ≤ ∑ k ∈ L.erase j, w k :=
    single_le_sum (fun _ _ => Nat.zero_le _) (mem_erase.mpr ⟨ne.symm, mem⟩)
  have whole := sum_erase_add L w mem
  have := short i mem
  have := short j other
  omega

end Gton.Quorum
