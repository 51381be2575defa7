import Gton.Lib.Bits
import Gton.Lib.Weighted
import Mathlib.Algebra.BigOperators.Intervals
import Mathlib.Data.Nat.Factorization.Basic
import Mathlib.Data.Nat.Size
import Mathlib.Tactic.Ring

/-!
# Fenwick trees

The node `j` of the tree, counted from 1, holds the sum of the `lowbit j` values that end with
the `j`-th. A tree over `n` values is a function here; the code keeps it in a slice of `n + 1`.
-/

namespace Gton.Lib.Fenwick

open Function

/-- `j & -j` on a machine word. -/
def lowbit (j : Nat) : Nat := (BitVec.ofNat 64 j &&& -BitVec.ofNat 64 j).toNat

theorem lowbit_two_pow_mul_odd {t m : Nat} (lt : 2 ^ t * (2 * m + 1) < 2 ^ 64) :
    lowbit (2 ^ t * (2 * m + 1)) = 2 ^ t := by
  have ht : 2 ^ t < 2 ^ 64 := lt_of_le_of_lt (Nat.le_mul_of_pos_right _ (by omega)) lt
  have ht' : t < 64 := (Nat.pow_lt_pow_iff_right (by decide)).mp ht
  have bit (i : Nat) : (BitVec.ofNat 64 (2 ^ t * (2 * m + 1))).getLsbD i =
      (decide (i < 64) && decide (t ≤ i) && (2 * m + 1).testBit (i - t)) := by
    rw [BitVec.getLsbD_ofNat, Nat.testBit_two_pow_mul]
    cases decide (i < 64) <;> cases decide (t ≤ i) <;> simp
  have here : (BitVec.ofNat 64 (2 ^ t * (2 * m + 1))).getLsbD t = true := by
    rw [bit]
    simp [ht']
  have ne : BitVec.ofNat 64 (2 ^ t * (2 * m + 1)) ≠ 0#64 := by
    intro zero
    rw [zero] at here
    simp at here
  have zeros := Lib.Bits.trailingZeros_eq_of_bits here fun j lt => by
    rw [bit]
    simp [Nat.not_le.mpr lt]
  unfold lowbit
  rw [Lib.Bits.and_neg ne, zeros, BitVec.toNat_twoPow, Nat.mod_eq_of_lt ht]

variable {i w k : Nat}

section Lowbit

variable {j : Nat}

section

variable (pos : 0 < j) (lt : j < 2 ^ 64)
include pos lt

theorem exists_lowbit : ∃ t m, j = 2 ^ t * (2 * m + 1) ∧ lowbit j = 2 ^ t := by
  obtain ⟨t, k, odd, rfl⟩ := Nat.exists_eq_two_pow_mul_odd (Nat.pos_iff_ne_zero.mp pos)
  obtain ⟨m, rfl⟩ := odd
  exact ⟨t, m, rfl, lowbit_two_pow_mul_odd lt⟩

theorem lowbit_pos : 0 < lowbit j := by
  obtain ⟨t, m, -, eq⟩ := exists_lowbit pos lt
  rw [eq]
  exact Nat.two_pow_pos t

theorem lowbit_le : lowbit j ≤ j := by
  obtain ⟨t, m, rfl, eq⟩ := exists_lowbit pos lt
  rw [eq]
  exact Nat.le_mul_of_pos_right _ (by omega)

theorem two_pow_le_lowbit {s : Nat} (dvd : 2 ^ s ∣ j) : 2 ^ s ≤ lowbit j := by
  obtain ⟨t, m, rfl, eq⟩ := exists_lowbit pos lt
  rw [eq]
  apply Nat.pow_le_pow_right (by decide)
  by_contra above
  have more : 2 ^ (t + 1) ∣ 2 ^ t * (2 * m + 1) := (Nat.pow_dvd_pow 2 (by omega)).trans dvd
  have := (Nat.mul_dvd_mul_iff_left (Nat.two_pow_pos t)).mp more
  omega

end

theorem lowbit_add_two_pow {a s : Nat} (dvd : 2 ^ (s + 1) ∣ a) (lt : a + 2 ^ s < 2 ^ 64) :
    lowbit (a + 2 ^ s) = 2 ^ s := by
  obtain ⟨m, rfl⟩ := dvd
  have eq : 2 ^ (s + 1) * m + 2 ^ s = 2 ^ s * (2 * m + 1) := by
    ring
  rw [eq] at lt ⊢
  exact lowbit_two_pow_mul_odd lt

/-- Up to the next node the nodes hold later values only. -/
theorem le_sub_lowbit_of_between (pos : 0 < j) (above : j < i) (below : i < j + lowbit j)
    (lt : i < 2 ^ 64) : j ≤ i - lowbit i := by
  obtain ⟨t, m, rfl, eq⟩ := exists_lowbit pos (by omega)
  obtain ⟨d, rfl⟩ := Nat.exists_eq_add_of_lt above
  obtain ⟨u, v, odd, -⟩ := exists_lowbit (j := d + 1) (by omega) (by omega)
  have le : 2 ^ u ≤ d + 1 := odd ▸ Nat.le_mul_of_pos_right _ (by omega)
  have small : u < t := by
    have pow : 2 ^ u < 2 ^ t := by omega
    exact (Nat.pow_lt_pow_iff_right (by decide)).mp pow
  have dvd : 2 ^ (u + 1) ∣ 2 ^ t * (2 * m + 1) + (d + 1) - 2 ^ u := by
    have first : 2 ^ (u + 1) ∣ 2 ^ t * (2 * m + 1) :=
      (Nat.pow_dvd_pow 2 (by omega)).trans (Nat.dvd_mul_right _ _)
    have second : 2 ^ (u + 1) ∣ d + 1 - 2 ^ u := by
      refine ⟨v, ?_⟩
      rw [odd, pow_succ, Nat.mul_add, Nat.mul_one, Nat.add_sub_cancel]
      ring
    rw [Nat.add_sub_assoc le]
    exact Nat.dvd_add first second
  have whole : 2 ^ t * (2 * m + 1) + d + 1 = 2 ^ t * (2 * m + 1) + (d + 1) - 2 ^ u + 2 ^ u := by
    omega
  have low : lowbit (2 ^ t * (2 * m + 1) + d + 1) = 2 ^ u := by
    rw [whole]
    exact lowbit_add_two_pow dvd (by omega)
  omega

theorem lowbit_next_le (pos : 0 < j) (lt : j + lowbit j < 2 ^ 64) :
    2 * lowbit j ≤ lowbit (j + lowbit j) := by
  obtain ⟨t, m, eq, low⟩ := exists_lowbit pos (by omega)
  rw [low, ← Nat.pow_succ']
  apply two_pow_le_lowbit (by omega) (low ▸ lt)
  refine ⟨m + 1, ?_⟩
  rw [eq, pow_succ]
  ring

end Lowbit

/-! ## Sums -/

/-- The sum of the values from `a` to before `b`. -/
def sum (e : Nat → Nat) (a b : Nat) : Nat := ∑ k ∈ Finset.Ico a b, e k

section Sum

variable {e : Nat → Nat} {a b c : Nat}

theorem sum_add (hab : a ≤ b) (hbc : b ≤ c) : sum e a b + sum e b c = sum e a c :=
  Finset.sum_Ico_consecutive e hab hbc

theorem sum_succ (hab : a ≤ b) : sum e a (b + 1) = sum e a b + e b :=
  Finset.sum_Ico_succ_top hab e

@[simp] theorem sum_self : sum e a a = 0 := by
  simp [sum]

theorem sum_mono (h : b ≤ c) : sum e 0 b ≤ sum e 0 c := by
  rw [← sum_add (Nat.zero_le b) h]
  exact Nat.le_add_right _ _

theorem sum_update_of_mem (le : w ≤ e k) (ha : a ≤ k) (hb : k < b) :
    sum (Function.update e k (e k - w)) a b = sum e a b - w := by
  unfold sum
  rw [Finset.sum_update_of_mem (Finset.mem_Ico.mpr ⟨ha, hb⟩)]
  have whole := Finset.add_sum_erase (Finset.Ico a b) e (Finset.mem_Ico.mpr ⟨ha, hb⟩)
  rw [Finset.sdiff_singleton_eq_erase]
  omega

theorem sum_update_of_not_mem {x : Nat} (out : k < a ∨ b ≤ k) :
    sum (Function.update e k x) a b = sum e a b := by
  apply Finset.sum_congr rfl
  intro i mem
  obtain ⟨low, high⟩ := Finset.mem_Ico.mp mem
  exact update_of_ne (by omega) _ _

end Sum

/-! ## The tree -/

/-- Every node holds its sum. -/
def Holds (tree e : Nat → Nat) (n : Nat) : Prop :=
  ∀ j, 0 < j → j ≤ n → tree j = sum e (j - lowbit j) j

/-- Go down by steps of `2 ^ (t - 1), ..., 2, 1` to the first value whose prefix passes the
position. -/
def search (tree : Nat → Nat) (n : Nat) : Nat → Nat → Nat → Nat
  | 0, index, _ => index
  | t + 1, index, p =>
    let next := index + 2 ^ t
    if next < n + 1 ∧ tree next ≤ p then search tree n t next (p - tree next)
    else search tree n t index p

/-- Take a weight out of the nodes above an index. -/
def remove (n weight : Nat) : Nat → Nat → (Nat → Nat) → Nat → Nat
  | 0, _, tree => tree
  | fuel + 1, index, tree =>
    if index < n + 1 then
      remove n weight fuel (index + lowbit index)
        (Function.update tree index (tree index - weight))
    else tree

/-- One round of the construction. -/
def grow (n : Nat) (e : Nat → Nat) (tree : Nat → Nat) (i : Nat) : Nat → Nat :=
  let index := i + 1
  let tree := Function.update tree index (tree index + e i)
  let parent := index + lowbit index
  if parent < n + 1 then Function.update tree parent (tree parent + tree index) else tree

def build (n : Nat) (e : Nat → Nat) : Nat → Nat :=
  (List.range n).foldl (grow n e) fun _ => 0

section Tree

variable {tree e : Nat → Nat} {n : Nat}

theorem search_spec (h : Holds tree e n) (small : n < 2 ^ 63) {P : Nat} : ∀ {t index : Nat},
    2 ^ t ∣ index → index ≤ n → sum e 0 index ≤ P → P < sum e 0 (min n (index + 2 ^ t)) →
    sum e 0 (search tree n t index (P - sum e 0 index)) ≤ P ∧
      P < sum e 0 (search tree n t index (P - sum e 0 index) + 1) ∧
      search tree n t index (P - sum e 0 index) < n := by
  intro t
  induction t with
  | zero =>
    intro index _ le low high
    have inside : index < n := by
      by_contra out
      rw [Nat.min_eq_left (by omega)] at high
      have : index = n := by omega
      subst this
      omega
    rw [Nat.min_eq_right (by omega)] at high
    exact ⟨low, high, inside⟩
  | succ t ih =>
    intro index dvd le low high
    have half : 2 ^ t ∣ index := (Nat.pow_dvd_pow 2 (by omega)).trans dvd
    have double : index + 2 ^ (t + 1) = index + 2 ^ t + 2 ^ t := by
      omega
    unfold search
    by_cases inside : index + 2 ^ t ≤ n
    · -- the node over the next step covers exactly that step
      have node : tree (index + 2 ^ t) = sum e index (index + 2 ^ t) := by
        rw [h _ (by omega) inside, lowbit_add_two_pow dvd (by omega), Nat.add_sub_cancel]
      have whole := sum_add (e := e) (Nat.zero_le index) (Nat.le_add_right index (2 ^ t))
      by_cases fits : tree (index + 2 ^ t) ≤ P - sum e 0 index
      · rw [if_pos ⟨by omega, fits⟩]
        have rest : P - sum e 0 index - tree (index + 2 ^ t) = P - sum e 0 (index + 2 ^ t) := by
          omega
        rw [rest]
        rw [double] at high
        exact ih (Nat.dvd_add half (Nat.dvd_refl _)) inside (by omega) high
      · rw [if_neg (fun both => fits both.2)]
        refine ih half le low ?_
        rw [Nat.min_eq_right inside]
        omega
    · rw [if_neg (fun both => inside (by omega))]
      refine ih half le low ?_
      rw [Nat.min_eq_left (by omega)] at high ⊢
      exact high

theorem remove_spec {weight : Nat} (small : n < 2 ^ 63) (hk : k < n) (le : weight ≤ e k) :
    ∀ {fuel index : Nat} {tree : Nat → Nat}, n < index + fuel → k < index →
    (index ≤ n → index - lowbit index ≤ k) → (∀ j, 0 < j → j ≤ n → tree j =
      sum (if j < index then Function.update e k (e k - weight) else e) (j - lowbit j) j) →
    Holds (remove n weight fuel index tree) (Function.update e k (e k - weight)) n := by
  intro fuel
  induction fuel with
  | zero =>
    intro index tree enough _ _ nodes j pos hj
    rw [remove, nodes j pos hj, if_pos (by omega)]
  | succ fuel ih =>
    intro index tree enough above covers nodes
    unfold remove
    split
    · have start := covers (by omega)
      apply ih
      · omega
      · omega
      · intro next
        have := lowbit_next_le (j := index) (by omega) (by omega)
        omega
      · intro j pos hj
        by_cases here : j = index
        · subst here
          rw [update_self, if_pos (by omega), nodes j pos hj, if_neg (by omega),
            sum_update_of_mem le start above]
        · rw [update_of_ne here, nodes j pos hj]
          by_cases before : j < index
          · rw [if_pos before, if_pos (by omega)]
          · rw [if_neg before]
            split
            · -- between this node and the next no node covers the value
              rename_i next
              have later := le_sub_lowbit_of_between (j := index) (by omega) (by omega) next
                (by omega)
              rw [sum_update_of_not_mem (.inl (by omega))]
            · rfl
    · intro j pos hj
      rw [nodes j pos hj, if_pos (by omega)]

/-- While it grows, the nodes up to `q` are complete; a later node holds its sum up to a child. -/
structure Growing (e tree : Nat → Nat) (n q : Nat) : Prop where
  complete : ∀ j, 0 < j → j ≤ q → j ≤ n → tree j = sum e (j - lowbit j) j
  open_ : ∀ j, q < j → j ≤ n → ∃ s, 2 ^ s ≤ lowbit j ∧
    tree j = sum e (j - lowbit j) (j - 2 ^ s) ∧ (j - 2 ^ s ≤ q ∨ 2 ^ s = lowbit j) ∧
    (s = 0 ∨ q < j - 2 ^ (s - 1))

theorem growing_start (small : n < 2 ^ 63) : Growing e (fun _ => 0) n 0 where
  complete j pos le := by omega
  open_ j pos le := by
    obtain ⟨t, m, eq, low⟩ := exists_lowbit pos (by omega)
    refine ⟨t, by rw [low], by rw [low, sum_self], .inr low.symm, ?_⟩
    have fits := lowbit_le pos (by omega)
    rw [low] at fits
    cases t with
    | zero => exact .inl rfl
    | succ t =>
      right
      simp only [Nat.add_sub_cancel]
      omega

theorem growing_step (small : n < 2 ^ 63) {q : Nat} (inside : q < n) (h : Growing e tree n q) :
    Growing e (grow n e tree q) n (q + 1) := by
  have node : sum e (q + 1 - lowbit (q + 1)) (q + 1) = tree (q + 1) + e q := by
    obtain ⟨s, -, eq, -, last⟩ := h.open_ (q + 1) (by omega) (by omega)
    have zero : s = 0 := by
      rcases last with zero | far
      · exact zero
      · have := Nat.two_pow_pos (s - 1)
        omega
    subst zero
    have := lowbit_pos (j := q + 1) (by omega) (by omega)
    rw [sum_succ (by omega), eq, pow_zero, Nat.add_sub_cancel]
  have up := lowbit_pos (j := q + 1) (by omega) (by omega)
  obtain ⟨t, -, -, low⟩ := exists_lowbit (j := q + 1) (by omega) (by omega)
  -- the values of the new tree
  have self : grow n e tree q (q + 1) = sum e (q + 1 - lowbit (q + 1)) (q + 1) := by
    unfold grow
    split
    · rw [update_of_ne (by omega), update_self, node]
    · rw [update_self, node]
  have other (j : Nat) (ne : j ≠ q + 1) (ne' : j ≠ q + 1 + lowbit (q + 1)) :
      grow n e tree q j = tree j := by
    unfold grow
    split
    · rw [update_of_ne ne', update_of_ne ne]
    · rw [update_of_ne ne]
  have parent (le : q + 1 + lowbit (q + 1) ≤ n) :
      grow n e tree q (q + 1 + lowbit (q + 1)) =
        tree (q + 1 + lowbit (q + 1)) + sum e (q + 1 - lowbit (q + 1)) (q + 1) := by
    unfold grow
    rw [if_pos (by omega), update_self, update_self,
      update_of_ne (by omega), node]
  constructor
  · intro j pos le hn
    by_cases here : j = q + 1
    · subst here
      exact self
    · rw [other j here (by omega)]
      exact h.complete j pos (by omega) hn
  · intro j lt hn
    obtain ⟨s, le, eq, near, far⟩ := h.open_ j (by omega) hn
    by_cases here : j = q + 1 + lowbit (q + 1)
    · -- the parent: its sum ended where the child starts
      subst here
      have big := lowbit_next_le (j := q + 1) (by omega) (by omega)
      have exact_ : s = t + 1 := by
        rcases Nat.lt_trichotomy s (t + 1) with less | same | more
        · have : 2 ^ s ≤ 2 ^ t := Nat.pow_le_pow_right (by decide) (by omega)
          omega
        · exact same
        · have : 2 ^ (t + 1) ≤ 2 ^ (s - 1) := Nat.pow_le_pow_right (by decide) (by omega)
          omega
      subst exact_
      have ends : q + 1 + lowbit (q + 1) - 2 ^ (t + 1) = q + 1 - lowbit (q + 1) := by omega
      refine ⟨t, by omega, ?_, .inl (by omega), ?_⟩
      · have upTo : q + 1 + lowbit (q + 1) - 2 ^ t = q + 1 := by omega
        rw [parent hn, eq, ends, upTo]
        exact sum_add (by omega) (by omega)
      · cases t with
        | zero => exact .inl rfl
        | succ t =>
          right
          simp only [Nat.add_sub_cancel]
          omega
    · refine ⟨s, le, ?_, ?_, ?_⟩
      · rw [other j (by omega) here]
        exact eq
      · rcases near with near | near
        · exact .inl (by omega)
        · exact .inr near
      · cases s with
        | zero => exact .inl rfl
        | succ s =>
          right
          have far : q < j - 2 ^ s := far.resolve_left (by omega)
          change q + 1 < j - 2 ^ s
          by_contra not_far
          -- then the new node is a child of this one
          obtain ⟨u, k, whole, bit⟩ := exists_lowbit (j := j) (by omega) (by omega)
          have dvd : 2 ^ (s + 1) ∣ j := by
            rw [bit] at le
            have := (Nat.pow_le_pow_iff_right (by decide)).mp le
            rw [whole]
            exact (Nat.pow_dvd_pow 2 this).trans (Nat.dvd_mul_right _ _)
          have room := Nat.le_of_dvd (by omega) dvd
          have below : 2 ^ (s + 1) ∣ j - 2 ^ (s + 1) := Nat.dvd_sub dvd (Nat.dvd_refl _)
          have child : lowbit (j - 2 ^ (s + 1) + 2 ^ s) = 2 ^ s :=
            lowbit_add_two_pow below (by omega)
          have same : j - 2 ^ (s + 1) + 2 ^ s = q + 1 := by omega
          rw [same] at child
          omega

theorem build_holds (small : n < 2 ^ 63) : Holds (build n e) e n := by
  have all (q : Nat) (le : q ≤ n) :
      Growing e ((List.range q).foldl (grow n e) fun _ => 0) n q := by
    induction q with
    | zero => exact growing_start small
    | succ q ih =>
      rw [List.range_succ, List.foldl_append]
      exact growing_step small le (ih (by omega))
  intro j pos le
  exact (all n (le_refl n)).complete j pos le le

end Tree

/-! ## Drawing by weight -/

open Weighted

/-- What each item still weighs. -/
def weightLeft (s : Slots) (k : Nat) : Nat :=
  match s[k]? with
  | some (w, false) => w
  | _ => 0

section Slots

variable {s : Slots} {p : Nat} {tree : Nat → Nat}

theorem sum_weightLeft_cons (x : Nat × Bool) (rest : Slots) (k : Nat) :
    sum (weightLeft (x :: rest)) 0 (k + 1) =
      (if x.2 then 0 else x.1) + sum (weightLeft rest) 0 k := by
  obtain ⟨w, taken⟩ := x
  unfold sum
  rw [← Finset.range_eq_Ico, ← Finset.range_eq_Ico, Finset.sum_range_succ', Nat.add_comm]
  cases taken <;> rfl

theorem sum_weightLeft (s : Slots) : sum (weightLeft s) 0 s.length = remaining s := by
  induction s with
  | nil => rfl
  | cons x rest ih =>
    rw [List.length_cons, sum_weightLeft_cons, ih]
    rfl

theorem locate_spec (lt : p < remaining s) :
    sum (weightLeft s) 0 (locate s p) ≤ p ∧ p < sum (weightLeft s) 0 (locate s p + 1) := by
  induction s generalizing p with
  | nil => simp [remaining] at lt
  | cons x rest ih =>
    obtain ⟨w, taken⟩ := x
    cases taken with
    | true =>
      have tail := ih (by simpa [remaining] using lt)
      simp only [locate, if_true, sum_weightLeft_cons]
      omega
    | false =>
      by_cases here : p < w
      · simp only [locate, Bool.false_eq_true, if_false, if_pos here, sum_weightLeft_cons, sum_self]
        omega
      · have lt' : p - w < remaining rest := by
          simp only [remaining, Bool.false_eq_true, if_false] at lt
          omega
        have tail := ih lt'
        simp only [locate, Bool.false_eq_true, if_false, if_neg here, sum_weightLeft_cons]
        omega

theorem eq_of_prefixes {e : Nat → Nat} {a b : Nat} (ha : sum e 0 a ≤ p)
    (ha' : p < sum e 0 (a + 1)) (hb : sum e 0 b ≤ p) (hb' : p < sum e 0 (b + 1)) : a = b := by
  rcases Nat.lt_trichotomy a b with lt | eq | gt
  · have := sum_mono (e := e) (show a + 1 ≤ b from lt)
    omega
  · exact eq
  · have := sum_mono (e := e) (show b + 1 ≤ a from gt)
    omega

theorem search_eq_locate (h : Holds tree (weightLeft s) s.length)
    (small : s.length < 2 ^ 63) (lt : p < remaining s) :
    search tree s.length s.length.size 0 p = locate s p := by
  have high : p < sum (weightLeft s) 0 (min s.length (0 + 2 ^ s.length.size)) := by
    rw [Nat.zero_add, Nat.min_eq_left (Nat.le_of_lt (Nat.lt_size_self _)), sum_weightLeft]
    exact lt
  have found := search_spec h small (Nat.dvd_zero _) (Nat.zero_le _) (by simp) high
  exact eq_of_prefixes found.1 found.2.1 (locate_spec lt).1 (locate_spec lt).2

theorem weightLeft_take (item : s[i]? = some (w, false)) :
    weightLeft (take s i) = Function.update (weightLeft s) i (weightLeft s i - w) := by
  funext k
  induction s generalizing i k with
  | nil => cases item
  | cons x rest ih =>
    cases i with
    | zero =>
      cases item
      cases k with
      | zero => simp [take, weightLeft]
      | succ k => rfl
    | succ i =>
      cases k with
      | zero => rfl
      | succ k =>
        have tail := ih item k
        by_cases here : k = i
        · subst here
          rw [update_self] at tail ⊢
          exact tail
        · rw [update_of_ne here] at tail
          rw [update_of_ne (by omega)]
          exact tail

theorem remove_take (h : Holds tree (weightLeft s) s.length)
    (small : s.length < 2 ^ 63) (item : s[i]? = some (w, false)) :
    Holds (remove s.length w s.length (i + 1) tree) (weightLeft (take s i)) s.length := by
  have inside : i < s.length := (List.getElem?_eq_some_iff.mp item).1
  have weight : weightLeft s i = w := by
    unfold weightLeft
    rw [item]
  rw [weightLeft_take item]
  refine remove_spec small inside (Nat.le_of_eq weight.symm) (by omega) (by omega) ?_ ?_
  · intro le
    have := lowbit_pos (j := i + 1) (by omega) (by omega)
    omega
  · intro j pos le
    rw [h j pos le]
    split
    · rw [sum_update_of_not_mem (.inr (by omega))]
    · rfl

end Slots

end Gton.Lib.Fenwick
