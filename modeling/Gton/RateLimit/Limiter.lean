import Mathlib.Algebra.BigOperators.Group.List.Basic
import Mathlib.Algebra.Order.Ring.Int
import Mathlib.Logic.Function.Basic

/-!
# The rate limiter

A key's bucket is the instant its budget is exhausted until. The model makes one call after the
other, and its arithmetic returns nothing where an int64 would wrap. Over it stands the budget that
is never pruned, on which every call is judged in exact arithmetic.
-/

namespace Gton.RateLimit

open List Function

def maxNanos : Int := 2 ^ 63 - 1

/-- The result of an int64 operation: nothing where it would wrap. -/
def int64 (x : Int) : Option Int := if -2 ^ 63 ≤ x ∧ x ≤ maxNanos then some x else none

theorem int64_eq {x : Int} (low : 0 ≤ x) (high : x ≤ maxNanos) : int64 x = some x :=
  if_pos ⟨by omega, high⟩

structure Limiter where
  unitNanos : Int
  burstNanos : Int
  unit_pos : 0 < unitNanos
  burst_pos : 0 < burstNanos

structure Bucket where
  until_ : Int := 0
  deleted : Bool := false

abbrev Buckets (K : Type) := K → Option Bucket

inductive Call (K : Type) where
  | allowN (key : K) (weight : Nat) (now : Int)
  | prune (now : Int)

structure Decision (K : Type) where
  key : K
  weight : Nat
  now : Int
  admitted : Bool
  deriving DecidableEq

variable {K : Type}

def burstNanos (unitNanos burstUnits : Int) : Option Int :=
  if unitNanos ≤ 0 ∨ burstUnits ≤ 0 then some 0
  else if maxNanos / burstUnits < unitNanos then some maxNanos
  else int64 (unitNanos * burstUnits)

/-- `bucket`, and the turn of `AllowN`'s loop that drops a deleted bucket and files a fresh one. -/
def Buckets.bucket (buckets : Buckets K) (key : K) : Bucket :=
  match buckets key with
  | some b => if b.deleted then {} else b
  | none => {}

variable [DecidableEq K]

namespace Limiter

def costFor (l : Limiter) (weight : Nat) : Option Int :=
  if maxNanos / l.unitNanos < weight then some maxNanos else int64 (l.unitNanos * weight)

def reserve (l : Limiter) (b : Bucket) (now cost : Int) : Option (Bool × Bucket) := do
  let base := if b.until_ < now then now else b.until_
  if (← int64 (maxNanos - cost)) < base then return (false, b)
  let next ← int64 (base + cost)
  if l.burstNanos < (← int64 (next - now)) then return (false, b)
  return (true, { b with until_ := next })

/-- `AllowN`. No bucket is pruned during a call, so its reservation is never filed again. -/
def allowN (l : Limiter) (buckets : Buckets K) (key : K) (weight : Nat) (now : Int) :
    Option (Bool × Buckets K) := do
  if weight = 0 then return (true, buckets)
  let (admitted, b) ← l.reserve (buckets.bucket key) now (← l.costFor weight)
  return (admitted, update buckets key (some b))

end Limiter

def prune (buckets : Buckets K) (now : Int) : Buckets K := fun key =>
  (buckets key).filter fun b => now < b.until_ ∨ b.deleted

/-- What the calls of a run are answered. -/
def Limiter.decisions (l : Limiter) : Buckets K → List (Call K) → Option (List (Decision K))
  | _, [] => some []
  | buckets, .prune now :: rest => l.decisions (prune buckets now) rest
  | buckets, .allowN key weight now :: rest => do
    let (admitted, buckets) ← l.allowN buckets key weight now
    return ⟨key, weight, now, admitted⟩ :: (← l.decisions buckets rest)

def Call.now : Call K → Int
  | allowN _ _ now => now
  | prune now => now

def Call.isRequest : Call K → Bool
  | allowN .. => true
  | prune _ => false

/-- The exact cost that a key's calls between two instants were granted. -/
def Limiter.admittedCost (l : Limiter) (key : K) (s t : Int) (made : List (Decision K)) : Int :=
  (made.map fun d => if d.key = key ∧ s ≤ d.now ∧ d.now ≤ t ∧ d.admitted then
    l.unitNanos * d.weight else 0).sum

/-! ## The budget that is never pruned -/

/-- Whether a budget covers a call, and what is left of it then. -/
def Limiter.judge (l : Limiter) (budget : K → Int) (key : K) (weight : Nat) (now : Int) :
    Bool × (K → Int) :=
  let next := max (budget key) now + l.unitNanos * weight
  if weight = 0 then (true, budget)
  else if next ≤ maxNanos ∧ next ≤ now + l.burstNanos then (true, update budget key next)
  else (false, budget)

def Limiter.judgeAll (l : Limiter) : (K → Int) → List (Call K) → List (Decision K)
  | _, [] => []
  | budget, .prune _ :: rest => l.judgeAll budget rest
  | budget, .allowN key weight now :: rest =>
    ⟨key, weight, now, (l.judge budget key weight now).1⟩ ::
      l.judgeAll (l.judge budget key weight now).2 rest

/-- From an instant on, the buckets and the budget are exhausted until the same instants. -/
def Covers (now : Int) (buckets : Buckets K) (budget : K → Int) : Prop :=
  ∀ key, max (buckets.bucket key).until_ now = max (budget key) now

variable {l : Limiter} {buckets : Buckets K} {budget : K → Int} {key : K} {weight : Nat} {now : Int}
  {calls : List (Call K)}

theorem int64_mul {d x : Int} (pos : 0 < d) (low : 0 ≤ x) (fits : x ≤ maxNanos / d) :
    int64 (d * x) = some (d * x) ∧ d * x ≤ maxNanos := by
  have high := (Int.le_ediv_iff_mul_le pos).mp fits
  rw [Int.mul_comm] at high
  exact ⟨int64_eq (Int.mul_nonneg pos.le low) high, high⟩

theorem costFor_spec (l : Limiter) (weight : Nat) :
    ∃ cost, l.costFor weight = some cost ∧ 0 ≤ cost ∧ cost ≤ maxNanos ∧
      (cost = l.unitNanos * weight ∨ cost = maxNanos ∧ maxNanos < l.unitNanos * weight) := by
  have pos := l.unit_pos
  have low : (0 : Int) ≤ weight := by omega
  unfold Limiter.costFor
  split
  next high =>
    have large := (Int.ediv_lt_iff_lt_mul pos).mp high
    rw [Int.mul_comm] at large
    exact ⟨_, rfl, by decide, Int.le_refl _, .inr ⟨rfl, large⟩⟩
  next fits =>
    have ⟨eq, high⟩ := int64_mul pos low (Int.not_lt.mp fits)
    exact ⟨_, eq, Int.mul_nonneg pos.le low, high, .inl rfl⟩

theorem reserve_spec {b : Bucket} {cost : Int} (pos : 0 < now) (low : 0 ≤ cost)
    (high : cost ≤ maxNanos) : l.reserve b now cost = some
      (if max b.until_ now + cost ≤ maxNanos ∧ max b.until_ now + cost ≤ now + l.burstNanos then
        (true, { b with until_ := max b.until_ now + cost })
      else (false, b)) := by
  have base : (if b.until_ < now then now else b.until_) = max b.until_ now := by
    split <;> omega
  unfold Limiter.reserve
  simp only [base, int64_eq (x := maxNanos - cost) (by omega) (by omega), Option.bind_eq_bind,
    Option.bind_some]
  by_cases full : maxNanos - cost < max b.until_ now
  · rw [if_pos full, if_neg (by omega)]
    rfl
  · simp only [if_neg full, Option.bind_some,
      int64_eq (x := max b.until_ now + cost) (by omega) (by omega),
      int64_eq (x := max b.until_ now + cost - now) (by omega) (by omega)]
    by_cases ahead : l.burstNanos < max b.until_ now + cost - now
    · rw [if_pos ahead, if_neg (by omega)]
      rfl
    · rw [if_neg ahead, if_pos (by omega)]
      rfl

omit [DecidableEq K] in
theorem bucket_live : (buckets.bucket key).deleted = false := by
  unfold Buckets.bucket
  grind

theorem Covers.update {b : Bucket} {next : Int} (h : Covers now buckets budget)
    (live : b.deleted = false) (same : max b.until_ now = max next now) :
    Covers now (Function.update buckets key (some b)) (Function.update budget key next) := by
  intro other
  by_cases here : other = key
  · subst here
    simpa [Buckets.bucket, live] using same
  · simpa [Buckets.bucket, here] using h other

theorem Covers.filed (h : Covers now buckets budget) :
    Covers now (Function.update buckets key (some (buckets.bucket key))) budget := by
  have kept : Covers now _ (Function.update budget key (budget key)) := h.update bucket_live (h key)
  rwa [update_eq_self] at kept

/-- The saturated cost is never granted, and the exact one it stands for neither. -/
theorem allowN_spec (h : Covers now buckets budget) (pos : 0 < now) :
    ∃ buckets', l.allowN buckets key weight now =
        some ((l.judge budget key weight now).1, buckets') ∧
      Covers now buckets' (l.judge budget key weight now).2 := by
  unfold Limiter.allowN Limiter.judge
  by_cases none : weight = 0
  · simp only [none, if_true]
    exact ⟨buckets, rfl, h⟩
  · obtain ⟨cost, eq, low, high, exactly⟩ := costFor_spec l weight
    simp only [if_neg none, eq, Option.bind_eq_bind, Option.bind_some, reserve_spec pos low high,
      h key]
    rcases exactly with rfl | ⟨rfl, large⟩
    · split
      · exact ⟨_, rfl, h.update bucket_live rfl⟩
      · exact ⟨_, rfl, h.filed⟩
    · rw [if_neg (by omega), if_neg (by omega)]
      exact ⟨_, rfl, h.filed⟩

omit [DecidableEq K] in
theorem Covers.later {clock : Int} (h : Covers clock buckets budget) (le : clock ≤ now) :
    Covers now buckets budget := by
  intro key
  have := h key
  omega

omit [DecidableEq K] in
/-- What is pruned would count for nothing from then on. -/
theorem Covers.prune (h : Covers now buckets budget) (pos : 0 < now) :
    Covers now (RateLimit.prune buckets now) budget := by
  intro key
  rw [← h key]
  unfold Buckets.bucket RateLimit.prune
  cases buckets key with
  | none => simp
  | some b =>
    simp only [Option.filter_some]
    grind

/-- A timed run: the clock does not go back, and its instants are positive. -/
def Timed (calls : List (Call K)) : Prop :=
  calls.Pairwise (·.now ≤ ·.now) ∧ ∀ c ∈ calls, 0 < c.now

theorem decisions_eq {clock : Int} (timed : Timed calls) (h : Covers clock buckets budget)
    (start : ∀ c ∈ calls, clock ≤ c.now) :
    l.decisions buckets calls = some (l.judgeAll budget calls) := by
  induction calls generalizing clock buckets budget with
  | nil => rfl
  | cons c rest ih =>
    obtain ⟨sorted, pos⟩ := timed
    have now_pos := pos c mem_cons_self
    have first := h.later (start c mem_cons_self)
    have timed : Timed rest := ⟨sorted.of_cons, fun d mem => pos d (mem_cons_of_mem c mem)⟩
    have ordered := (pairwise_cons.mp sorted).1
    cases c with
    | prune now => exact ih timed (first.prune now_pos) ordered
    | allowN key weight now =>
      obtain ⟨buckets', eq, next⟩ := @allowN_spec _ _ l _ _ key weight now first now_pos
      unfold Limiter.decisions
      simp only [eq, Option.bind_eq_bind, Option.bind_some, ih timed next ordered]
      rfl

theorem judgeAll_filter (budget : K → Int) :
    l.judgeAll budget (calls.filter (·.isRequest)) = l.judgeAll budget calls := by
  induction calls generalizing budget with
  | nil => rfl
  | cons c rest ih =>
    cases c with
    | prune now => exact ih budget
    | allowN key weight now => exact congrArg (_ :: ·) (ih _)

/-- The budget that a run leaves. -/
def Limiter.spend (l : Limiter) : (K → Int) → List (Call K) → K → Int
  | budget, [] => budget
  | budget, .prune _ :: rest => l.spend budget rest
  | budget, .allowN key weight now :: rest => l.spend (l.judge budget key weight now).2 rest

theorem judgeAll_append {before after : List (Call K)} : l.judgeAll budget (before ++ after) =
    l.judgeAll budget before ++ l.judgeAll (l.spend budget before) after := by
  induction before generalizing budget with
  | nil => rfl
  | cons c rest ih =>
    cases c with
    | prune now => exact ih
    | allowN key weight now => exact congrArg (_ :: ·) ih

theorem judge_denied (denied : (l.judge budget key weight now).1 = false) :
    (l.judge budget key weight now).2 = budget := by
  unfold Limiter.judge at denied ⊢
  grind

/-- What a call is granted comes off what may still be granted up to `t`: what lies between the
budget and `t` plus the burst. -/
theorem judge_grants {key' : K} (s t : Int) :
    (if key' = key ∧ s ≤ now ∧ now ≤ t ∧ (l.judge budget key' weight now).1 then
        l.unitNanos * weight else 0) +
      max 0 (t + l.burstNanos - max ((l.judge budget key' weight now).2 key) s) ≤
    max 0 (t + l.burstNanos - max (budget key) s) := by
  have cost : 0 ≤ l.unitNanos * weight := Int.mul_nonneg l.unit_pos.le (by omega)
  unfold Limiter.judge
  by_cases none : weight = 0
  · simp [none]
  · simp only [if_neg none]
    split
    · by_cases same : key' = key
      · subst same
        simp only [update_self, true_and, and_true]
        split <;> omega
      · simp [same, update_of_ne (Ne.symm same)]
    · simp

theorem admittedCost_le (budget : K → Int) (calls : List (Call K)) (key : K) (s t : Int) :
    l.admittedCost key s t (l.judgeAll budget calls) ≤
      max 0 (t + l.burstNanos - max (budget key) s) := by
  induction calls generalizing budget with
  | nil => exact Int.le_max_left _ _
  | cons c rest ih =>
    cases c with
    | prune now => exact ih budget
    | allowN key' weight now =>
      have later := ih (l.judge budget key' weight now).2
      have granted := @judge_grants _ _ l budget key weight now key' s t
      simp only [Limiter.judgeAll, Limiter.admittedCost, map_cons, sum_cons] at later ⊢
      omega

/-- Over every run of calls: no operation wraps, what a key is granted between two instants is at
most the burst and the time between them, and neither a denied call nor pruning shows later. -/
theorem admitted_cost_is_bounded (l : Limiter) (calls : List (Call K)) (timed : Timed calls) :
    ∃ made, l.decisions (fun _ => none) calls = some made ∧
      (∀ key s t, s ≤ t → l.admittedCost key s t made ≤ l.burstNanos + (t - s)) ∧
      (∀ before key weight now after, calls = before ++ .allowN key weight now :: after →
        ∃ first admitted later, l.decisions (fun _ => none) before = some first ∧
          made = first ++ ⟨key, weight, now, admitted⟩ :: later ∧
          (admitted = false →
            l.decisions (fun _ => none) (before ++ after) = some (first ++ later))) ∧
      (∀ calls', Timed calls' → calls'.filter (·.isRequest) = calls.filter (·.isRequest) →
        l.decisions (fun _ => none) calls' = some made) ∧
      ∀ unit units, (burstNanos unit units).isSome := by
  have fresh (calls : List (Call K)) (timed : Timed calls) :
      l.decisions (fun _ => none) calls = some (l.judgeAll (fun _ => 0) calls) :=
    decisions_eq timed (fun _ => rfl) fun c mem => (timed.2 c mem).le
  refine ⟨_, fresh calls timed, ?_, ?_, ?_, ?_⟩
  · intro key s t le
    have most := @admittedCost_le _ _ l (fun _ => 0) calls key s t
    have := l.burst_pos
    omega
  · rintro before key weight now after rfl
    have part {calls' : List (Call K)}
      (sub : calls'.Sublist (before ++ .allowN key weight now :: after)) :
        Timed calls' := ⟨timed.1.sublist sub, fun c mem => timed.2 c (sub.subset mem)⟩
    refine ⟨_, _, _, fresh before (part (sublist_append_left _ _)), judgeAll_append, ?_⟩
    intro denied
    rw [fresh _ (part ((sublist_cons_self _ _).append_left _)), judgeAll_append,
      judge_denied denied]
  · intro calls' timed' same
    rw [fresh calls' timed', ← judgeAll_filter, same, judgeAll_filter]
  · intro unit units
    unfold burstNanos
    split
    · rfl
    · split
      · rfl
      next positive fits =>
        rw [Int.mul_comm, (int64_mul (by omega) (by omega) (Int.not_lt.mp fits)).1]
        rfl

/-- A unit a burst: the second call in one nanosecond is denied, pruned or not. -/
theorem admitted_cost_of_two_calls : let l : Limiter := ⟨10, 10, by decide, by decide⟩
    let calls : List (Call Nat) := [.allowN 0 1 5, .prune 5, .allowN 0 1 6]
    l.decisions (fun _ => none) calls = some [⟨0, 1, 5, true⟩, ⟨0, 1, 6, false⟩] ∧
      ∃ made, l.decisions (fun _ => none) [.allowN 0 1 5, .allowN 0 1 6] = some made ∧
        l.admittedCost 0 5 6 made ≤ 10 + (6 - 5) := by
  intro l calls
  refine ⟨by decide +kernel, ?_⟩
  obtain ⟨made, -, bound, -, pruned, -⟩ :=
    admitted_cost_is_bounded l calls ⟨by decide, by decide⟩
  exact ⟨made, pruned _ ⟨by decide, by decide⟩ rfl, bound 0 5 6 (by decide)⟩

end Gton.RateLimit
