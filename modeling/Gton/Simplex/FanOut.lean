import Mathlib.Algebra.BigOperators.Group.Finset.Piecewise
import Mathlib.Algebra.Order.BigOperators.Group.Finset

/-!
# Signature checks fanned out over workers

`verifyFanOut` starts workers that share two atomics: `next`, the next index to take, and
`bound`, the upper limit of the indices still worth taking. Every atomic operation is one step
of its worker, and a schedule says which worker takes the next step.
-/

namespace Gton.Simplex

/-- What a worker does next. -/
inductive Phase where
  /-- `next.Add(1)` -/
  | fetch
  /-- `i >= n || i >= bound.Load()` -/
  | check (i : Nat)
  /-- `body(i)` -/
  | work (i : Nat)
  /-- `current := bound.Load()` and `b >= current` -/
  | lower (b : Nat)
  /-- `bound.CompareAndSwap(current, b)` -/
  | swap (current b : Nat)
  | done
  deriving DecidableEq

/-- `verifyFanOut` with `k` workers. `calls` are the indices `body` has returned for. -/
structure FanOut (k : Nat) where
  next : Nat
  bound : Nat
  phase : Fin k → Phase
  calls : List Nat

namespace FanOut

variable {k n : Nat} {body : Nat → Nat} {s : FanOut k}

def start (k n : Nat) : FanOut k := ⟨0, n, fun _ => .fetch, []⟩

def goto (s : FanOut k) (w : Fin k) (p : Phase) : FanOut k :=
  { s with phase := Function.update s.phase w p }

/-- One step of worker `w`. -/
def step (n : Nat) (body : Nat → Nat) (s : FanOut k) (w : Fin k) : FanOut k :=
  match s.phase w with
  | .fetch => { s with next := s.next + 1 }.goto w (.check s.next)
  | .check i => s.goto w (if n ≤ i ∨ s.bound ≤ i then .done else .work i)
  | .work i => { s with calls := i :: s.calls }.goto w (.lower (body i))
  | .lower b => s.goto w (if s.bound ≤ b then .fetch else .swap s.bound b)
  | .swap current b =>
    if s.bound = current then { s with bound := b }.goto w .fetch else s.goto w (.lower b)
  | .done => s

def run (n : Nat) (body : Nat → Nat) (s : FanOut k) (schedule : List (Fin k)) : FanOut k :=
  schedule.foldl (step n body) s

/-- `wg.Wait` returns. -/
def Finished (s : FanOut k) : Prop := ∀ w, s.phase w = .done

instance : Decidable s.Finished := inferInstanceAs (Decidable (∀ w, s.phase w = .done))

end FanOut

/-! ## What every interleaving keeps -/

namespace Phase

variable {n next next' bound bound' : Nat} {body : Nat → Nat}

/-- What a worker knows of the atomics in a phase. -/
def Knows (n : Nat) (body : Nat → Nat) (next bound : Nat) : Phase → Prop
  | .fetch => True
  | .check i => i < next
  | .work i => i < n
  | .lower b => ∃ i < n, body i = b
  | .swap current b => (∃ i < n, body i = b) ∧ b < current ∧ bound ≤ current
  | .done => bound ≤ next

/-- The worker still has to judge index `i`. -/
def Judges (i : Nat) (p : Phase) : Prop := p = .check i ∨ p = .work i

/-- The worker still has to lower the bound to `b`. -/
def Lowers (b : Nat) (p : Phase) : Prop := p = .lower b ∨ ∃ current, p = .swap current b

/-- `next` only grows and `bound` only shrinks, so nothing a worker knows gets wrong. -/
theorem Knows.later {p : Phase} (h : p.Knows n body next bound) (grown : next ≤ next')
    (shrunk : bound' ≤ bound) : p.Knows n body next' bound' := by
  cases p with
  | fetch => trivial
  | check i => exact Nat.lt_of_lt_of_le h grown
  | work i => exact h
  | lower b => exact h
  | swap current b => exact ⟨h.1, h.2.1, Nat.le_trans shrunk h.2.2⟩
  | done => exact Nat.le_trans shrunk (Nat.le_trans h grown)

end Phase

namespace FanOut

variable {k n : Nat} {body : Nat → Nat} {s s' : FanOut k} {w : Fin k}

structure Sound (n : Nat) (body : Nat → Nat) (s : FanOut k) : Prop where
  capped : s.bound ≤ n
  attained : s.bound = n ∨ ∃ i < n, body i = s.bound
  knows : ∀ w, (s.phase w).Knows n body s.next s.bound
  /-- No index below the bound is lost. -/
  covered : ∀ i < s.next, i < s.bound → (∃ w, (s.phase w).Judges i) ∨
    i ∈ s.calls ∧ (s.bound ≤ body i ∨ ∃ w, (s.phase w).Lowers (body i))

theorem start_sound (k n : Nat) (body : Nat → Nat) : Sound n body (start k n) where
  capped := Nat.le_refl n
  attained := .inl rfl
  knows _ := trivial
  covered _ h := (Nat.not_lt_zero _ h).elim

namespace Sound

theorem goto (h : Sound n body s) (w : Fin k) (p : Phase)
    (phase : s'.phase = Function.update s.phase w p) (grown : s.next ≤ s'.next)
    (shrunk : s'.bound ≤ s.bound) (calls : s.calls ⊆ s'.calls)
    (attained : s'.bound = n ∨ ∃ i < n, body i = s'.bound)
    (knows : p.Knows n body s'.next s'.bound)
    (taken : ∀ i, s.next ≤ i → i < s'.next → p.Judges i)
    (judged : ∀ i < s'.bound, (s.phase w).Judges i →
      p.Judges i ∨ i ∈ s'.calls ∧ p.Lowers (body i))
    (lowered : ∀ b < s'.bound, (s.phase w).Lowers b → p.Lowers b) : Sound n body s' := by
  have here : s'.phase w = p := by rw [phase, Function.update_self]
  have other : ∀ v, v ≠ w → s'.phase v = s.phase v := by
    intro v ne
    rw [phase, Function.update_of_ne ne]
  refine ⟨Nat.le_trans shrunk h.capped, attained, ?_, ?_⟩
  · intro v
    by_cases eq : v = w
    · rw [eq, here]
      exact knows
    · rw [other v eq]
      exact (h.knows v).later grown shrunk
  · intro i isTaken below
    by_cases new : s.next ≤ i
    · exact .inl ⟨w, here ▸ taken i new isTaken⟩
    · rcases h.covered i (Nat.not_le.mp new) (Nat.lt_of_lt_of_le below shrunk) with
        ⟨v, judges⟩ | ⟨called, clear | ⟨v, lowers⟩⟩
      · by_cases eq : v = w
        · subst eq
          rcases judged i below judges with still | ⟨called, lowers⟩
          · exact .inl ⟨v, here ▸ still⟩
          · exact .inr ⟨called, .inr ⟨v, here ▸ lowers⟩⟩
        · exact .inl ⟨v, other v eq ▸ judges⟩
      · exact .inr ⟨calls called, .inl (Nat.le_trans shrunk clear)⟩
      · refine .inr ⟨calls called, ?_⟩
        by_cases clear : s'.bound ≤ body i
        · exact .inl clear
        · by_cases eq : v = w
          · subst eq
            exact .inr ⟨v, here ▸ lowered _ (Nat.not_le.mp clear) lowers⟩
          · exact .inr ⟨v, other v eq ▸ lowers⟩

theorem step (h : Sound n body s) (w : Fin k) : Sound n body (s.step n body w) := by
  have knows := h.knows w
  unfold FanOut.step
  cases phase : s.phase w with
  | fetch =>
    refine h.goto w (.check s.next) rfl (Nat.le_succ _) (Nat.le_refl _) (List.Subset.refl _)
      h.attained ?_ ?_ ?_ ?_
    · exact Nat.lt_succ_self _
    · intro i old new
      exact .inl (by rw [Nat.le_antisymm old (Nat.le_of_lt_succ new)])
    · intro i _ judges
      simp [phase, Phase.Judges] at judges
    · intro b _ lowers
      simp [phase, Phase.Lowers] at lowers
  | check i =>
    rw [phase] at knows
    dsimp only
    refine h.goto w _ rfl (Nat.le_refl _) (Nat.le_refl _) (List.Subset.refl _) h.attained
      ?_ ?_ ?_ ?_
    · split
      · have taken : i < s.next := knows
        have capped := h.capped
        change s.bound ≤ s.next
        omega
      · change i < n
        omega
    · intro j old new
      exact absurd new (Nat.not_lt.mpr old)
    · intro j below judges
      have capped := h.capped
      have same : j = i := by simpa [phase, Phase.Judges, eq_comm] using judges
      subst same
      have inside : ¬ (n ≤ j ∨ s.bound ≤ j) := by
        have below : j < s.bound := below
        omega
      rw [if_neg inside]
      exact .inl (.inr rfl)
    · intro b _ lowers
      simp [phase, Phase.Lowers] at lowers
  | work i =>
    rw [phase] at knows
    refine h.goto w (.lower (body i)) rfl (Nat.le_refl _) (Nat.le_refl _)
      (List.subset_cons_self _ _) h.attained ?_ ?_ ?_ ?_
    · exact ⟨i, knows, rfl⟩
    · intro j old new
      exact absurd new (Nat.not_lt.mpr old)
    · intro j _ judges
      have same : j = i := by simpa [phase, Phase.Judges, eq_comm] using judges
      subst same
      exact .inr ⟨List.mem_cons_self, .inl rfl⟩
    · intro b _ lowers
      simp [phase, Phase.Lowers] at lowers
  | lower b =>
    rw [phase] at knows
    dsimp only
    refine h.goto w _ rfl (Nat.le_refl _) (Nat.le_refl _) (List.Subset.refl _) h.attained
      ?_ ?_ ?_ ?_
    · split
      · trivial
      next lower =>
        exact ⟨knows, Nat.not_le.mp lower, Nat.le_refl _⟩
    · intro j old new
      exact absurd new (Nat.not_lt.mpr old)
    · intro j _ judges
      simp [phase, Phase.Judges] at judges
    · intro c below lowers
      have same : c = b := by simpa [phase, Phase.Lowers, eq_comm] using lowers
      subst same
      have below : c < s.bound := below
      rw [if_neg (Nat.not_le.mpr below)]
      exact .inr ⟨_, rfl⟩
  | swap current b =>
    rw [phase] at knows
    obtain ⟨made, smaller, seen⟩ := knows
    dsimp only
    split
    · refine h.goto w .fetch rfl (Nat.le_refl _) ?_ (List.Subset.refl _) (.inr made) trivial
        ?_ ?_ ?_
      · change b ≤ s.bound
        omega
      · intro j old new
        exact absurd new (Nat.not_lt.mpr old)
      · intro j _ judges
        simp [phase, Phase.Judges] at judges
      · intro c below lowers
        have same : c = b := by simpa [phase, Phase.Lowers, eq_comm] using lowers
        exact absurd below (Nat.not_lt.mpr (Nat.le_of_eq same.symm))
    · refine h.goto w (.lower b) rfl (Nat.le_refl _) (Nat.le_refl _) (List.Subset.refl _) h.attained
        made ?_ ?_ ?_
      · intro j old new
        exact absurd new (Nat.not_lt.mpr old)
      · intro j _ judges
        simp [phase, Phase.Judges] at judges
      · intro c _ lowers
        have same : c = b := by simpa [phase, Phase.Lowers, eq_comm] using lowers
        exact .inl (by rw [same])
  | done => exact h

theorem run (h : Sound n body s) (schedule : List (Fin k)) :
    Sound n body (s.run n body schedule) := by
  induction schedule generalizing s with
  | nil => exact h
  | cons w schedule ih => exact ih (h.step w)

/-- Once all workers are done, every index below the bound was judged and none of them asked
for a lower bound. -/
theorem finished (h : Sound n body s) (done : s.Finished) (workers : 0 < n → 0 < k) (i : Nat)
    (below : i < s.bound) : i ∈ s.calls ∧ s.bound ≤ body i := by
  have capped := h.capped
  have taken : s.bound ≤ s.next := by
    have knows := h.knows ⟨0, workers (by omega)⟩
    rw [done] at knows
    exact knows
  rcases h.covered i (Nat.lt_of_lt_of_le below taken) below with
    ⟨w, judges⟩ | ⟨called, clear | ⟨w, lowers⟩⟩
  · simp [done w, Phase.Judges] at judges
  · exact ⟨called, clear⟩
  · simp [done w, Phase.Lowers] at lowers

end Sound

end FanOut

/-! ## The workers come to an end -/

/-- How far a worker is from its end, up to the indices it may still take. A swap whose `current`
is outdated costs a second round. -/
def Phase.cost (n bound : Nat) : Phase → Nat
  | .fetch => 2
  | .check i => if i < n then 6 else 1
  | .work _ => 5
  | .lower _ => 4
  | .swap current _ => if current = bound then 3 else 5
  | .done => 0

theorem Phase.cost_le (n bound bound' : Nat) (p : Phase) :
    p.cost n bound' ≤ p.cost n bound + 2 := by
  cases p with
  | swap current b =>
    simp only [cost]
    split <;> split <;> omega
  | _ => exact Nat.le_add_right _ _

namespace FanOut

variable {k n : Nat} {body : Nat → Nat} {s : FanOut k} {w : Fin k} {schedule : List (Fin k)}

def measure (n : Nat) (s : FanOut k) : Nat :=
  10 * (n - s.next) + 2 * k * s.bound + ∑ w, (s.phase w).cost n s.bound

theorem measure_goto (n : Nat) (s : FanOut k) (w : Fin k) (p : Phase) :
    (s.goto w p).measure n + (s.phase w).cost n s.bound = s.measure n + p.cost n s.bound := by
  have others : ∑ v ∈ Finset.univ.erase w, (Function.update s.phase w p v).cost n s.bound =
      ∑ v ∈ Finset.univ.erase w, (s.phase v).cost n s.bound := by
    apply Finset.sum_congr rfl
    intro v hv
    rw [Function.update_of_ne (Finset.ne_of_mem_erase hv)]
  have before := Finset.add_sum_erase Finset.univ (fun v => (s.phase v).cost n s.bound)
    (Finset.mem_univ w)
  have after := Finset.add_sum_erase Finset.univ
    (fun v => (Function.update s.phase w p v).cost n s.bound) (Finset.mem_univ w)
  simp only [Function.update_self, others] at after
  unfold measure goto
  dsimp only
  omega

/-- A lower bound pays for the swaps it makes outdated. -/
theorem measure_bound {b : Nat} (lower : b < s.bound) :
    { s with bound := b }.measure n ≤ s.measure n := by
  have costs : ∑ v, (s.phase v).cost n b ≤ ∑ v, (s.phase v).cost n s.bound + 2 * k := by
    calc ∑ v, (s.phase v).cost n b
      _ ≤ ∑ v, ((s.phase v).cost n s.bound + 2) :=
        Finset.sum_le_sum fun v _ => (s.phase v).cost_le n s.bound b
      _ = ∑ v, (s.phase v).cost n s.bound + 2 * k := by
        rw [Finset.sum_add_distrib]
        simp [Nat.mul_comm]
  have paid : 2 * k * b + 2 * k ≤ 2 * k * s.bound := by
    rw [← Nat.mul_succ]
    exact Nat.mul_le_mul_left _ lower
  unfold measure
  dsimp only
  omega

theorem step_measure (h : Sound n body s) (running : s.phase w ≠ .done) :
    (s.step n body w).measure n < s.measure n := by
  have knows := h.knows w
  have moved := s.measure_goto n w
  unfold step
  cases phase : s.phase w with
  | fetch =>
    have taken : { s with next := s.next + 1 }.measure n + 10 * (n - s.next) =
        s.measure n + 10 * (n - (s.next + 1)) := by
      unfold measure
      dsimp only
      omega
    have after := { s with next := s.next + 1 }.measure_goto n w (.check s.next)
    dsimp only at after ⊢
    rw [phase] at after
    simp only [Phase.cost] at after
    split at after <;> omega
  | check i =>
    have after := moved (if n ≤ i ∨ s.bound ≤ i then .done else .work i)
    rw [phase] at after
    dsimp only
    split at after
    next out =>
      rw [if_pos out]
      simp only [Phase.cost] at after
      split at after <;> omega
    next inside =>
      rw [if_neg inside]
      simp only [Phase.cost] at after
      rw [if_pos (by omega)] at after
      omega
  | work i =>
    have after := { s with calls := i :: s.calls }.measure_goto n w (.lower (body i))
    have same : { s with calls := i :: s.calls }.measure n = s.measure n := rfl
    dsimp only at after ⊢
    rw [phase, same] at after
    simp only [Phase.cost] at after
    omega
  | lower b =>
    dsimp only
    split
    · have after := moved .fetch
      rw [phase] at after
      simp only [Phase.cost] at after
      omega
    · have after := moved (.swap s.bound b)
      rw [phase] at after
      simp only [Phase.cost, if_true] at after
      omega
  | swap current b =>
    rw [phase] at knows
    obtain ⟨-, smaller, -⟩ := knows
    dsimp only
    split
    · have paid := @measure_bound k n s b (by omega)
      have after := { s with bound := b }.measure_goto n w .fetch
      rw [phase] at after
      simp only [Phase.cost] at after
      rw [if_neg (by omega)] at after
      omega
    next outdated =>
      have after := moved (.lower b)
      rw [phase] at after
      simp only [Phase.cost] at after
      rw [if_neg fun eq => outdated eq.symm] at after
      omega
  | done => exact absurd phase running

/-- A schedule that only picks workers that are not done. -/
def Busy (n : Nat) (body : Nat → Nat) : FanOut k → List (Fin k) → Prop
  | _, [] => True
  | s, w :: schedule => s.phase w ≠ .done ∧ Busy n body (s.step n body w) schedule

theorem Sound.busy (h : Sound n body s) (busy : Busy n body s schedule) :
    schedule.length ≤ s.measure n := by
  induction schedule generalizing s with
  | nil => exact Nat.zero_le _
  | cons w schedule ih =>
    have rest := ih (h.step w) busy.2
    have first := step_measure h busy.1
    rw [List.length_cons]
    omega

theorem Sound.finishes (h : Sound n body s) : ∃ schedule, (s.run n body schedule).Finished := by
  induction bound : s.measure n using Nat.strong_induction_on generalizing s with
  | _ m ih =>
    by_cases done : s.Finished
    · exact ⟨[], done⟩
    · obtain ⟨w, running⟩ := not_forall.mp done
      obtain ⟨schedule, last⟩ := ih _ (bound ▸ step_measure h running) (h.step w) rfl
      exact ⟨w :: schedule, last⟩

/-- What `verifyFanOut` returns in some interleaving of `k` workers. -/
def Returns (k n : Nat) (body : Nat → Nat) (bound : Nat) : Prop :=
  ∃ schedule, ((start k n).run n body schedule).Finished ∧
    ((start k n).run n body schedule).bound = bound

theorem exists_returns (k n : Nat) (body : Nat → Nat) : ∃ bound, Returns k n body bound := by
  obtain ⟨schedule, done⟩ := (start_sound k n body).finishes
  exact ⟨_, schedule, done, rfl⟩

/-- A body that lowers the bound to a bad index makes the fan-out return the least bad one. -/
theorem Returns.least {bad : Nat → Bool} {bound : Nat} (workers : 0 < n → 0 < k)
    (h : Returns k n (fun i => if bad i then i else n) bound) :
    bound ≤ n ∧ (∀ i < bound, bad i = false) ∧ (bound < n → bad bound = true) := by
  obtain ⟨schedule, done, rfl⟩ := h
  have sound := (start_sound k n fun i => if bad i then i else n).run schedule
  generalize (start k n).run n _ schedule = s at done sound
  refine ⟨sound.capped, fun i below => ?_, fun below => ?_⟩
  · obtain ⟨-, clear⟩ := sound.finished done workers i below
    by_contra isBad
    rw [Bool.not_eq_false] at isBad
    rw [isBad, if_pos rfl] at clear
    omega
  · rcases sound.attained with all | ⟨i, _, eq⟩
    · omega
    · split at eq
      next isBad =>
        rw [← eq]
        exact isBad
      · omega

/-- A body that never lowers the bound is called for every index. -/
theorem calls_all (workers : 0 < n → 0 < k)
    (done : ((start k n).run n (fun _ => n) schedule).Finished) (i : Nat) (inside : i < n) :
    i ∈ ((start k n).run n (fun _ => n) schedule).calls := by
  have sound := (start_sound k n fun _ => n).run schedule
  have full : ((start k n).run n (fun _ => n) schedule).bound = n := by
    rcases sound.attained with all | ⟨_, _, eq⟩
    · exact all
    · exact eq.symm
  exact (sound.finished done workers i (by rw [full]; exact inside)).1

theorem calls_all_two :
    1 ∈ ((start 2 2).run 2 (fun _ => 2) [0, 1, 1, 0, 0, 1, 0, 1, 0, 1, 0, 1]).calls :=
  calls_all (by decide) (by decide) 1 (by decide)

end FanOut

end Gton.Simplex
