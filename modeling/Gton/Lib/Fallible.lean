import Mathlib.Data.List.Perm.Basic

/-!
# Fallible computations

How a computation that returned a result got there: one lemma for each way of composing.
-/

namespace Gton.Lib.Fallible

open List

variable {ε α β : Type} {xs : List α} {ys : List β} {x : Except ε α} {e : ε} {a : α}
  {f : α → Except ε β}

/-- Go on only if a condition holds. -/
def require (c : Bool) (e : ε) : Except ε Unit := if c then .ok () else .error e

@[simp] theorem require_eq_ok {c : Bool} {u : Unit} :
    require c e = .ok u ↔ c = true := by
  unfold require
  cases c <;> simp

theorem guard_eq_ok {c : Prop} [Decidable c] :
    (if c then .error e else x) = .ok a ↔ ¬ c ∧ x = .ok a := by
  split <;> simp [*]

@[simp] theorem bind_eq_ok {r : β} :
    (x >>= f) = .ok r ↔ ∃ a, x = .ok a ∧ f a = .ok r := by
  cases x with
  | error e => simp [bind, Except.bind]
  | ok a => simp [bind, Except.bind]

theorem pure_eq_ok {b : α} : (pure a : Except ε α) = .ok b ↔ a = b := by
  simp [pure, Except.pure]

@[simp] theorem map_eq_ok {f : α → β} {r : β} :
    f <$> x = .ok r ↔ ∃ a, x = .ok a ∧ f a = r := by
  cases x with
  | error e => simp [Functor.map, Except.map]
  | ok a => simp [Functor.map, Except.map]

@[simp] theorem mapError_eq_ok {ε' : Type} {f : ε → ε'} :
    x.mapError f = .ok a ↔ x = .ok a := by
  cases x <;> simp [Except.mapError]

/-- The result of a computation that returned one. -/
def resultD (x : Except ε α) (fallback : α) : α :=
  match x with
  | .ok a => a
  | .error _ => fallback

theorem eq_ok_resultD {fallback : α} (ok : x.isOk = true) : x = .ok (resultD x fallback) := by
  cases x with
  | error e => cases ok
  | ok a => rfl

/-- The computation succeeds exactly if `Q`, and then with a result in `P`. -/
def Decides (Q : Prop) (P : α → Prop) (x : Except ε α) : Prop :=
  match x with
  | .ok a => Q ∧ P a
  | .error _ => ¬ Q

namespace Decides

variable {Q Q' : Prop} {P : α → Prop} {x : Except ε α}

theorem of_iff {x : Except ε Unit} (h : x = .ok () ↔ Q) : Decides Q (fun _ => True) x := by
  cases x with
  | error e => exact fun q => nomatch h.mpr q
  | ok u => exact ⟨h.mp rfl, trivial⟩

theorem congr (iff : Q ↔ Q') (h : Decides Q P x) : Decides Q' P x := by
  rwa [← propext iff]

theorem imp {P' : α → Prop} (h : Decides Q P x) (weaken : ∀ a, P a → P' a) : Decides Q P' x := by
  cases x with
  | error e => exact h
  | ok a => exact ⟨h.1, weaken a h.2⟩

theorem bind {P' : β → Prop} (h : Decides Q P x)
    (next : ∀ a, Q → P a → Decides Q' P' (f a)) : Decides (Q ∧ Q') P' (x >>= f) := by
  cases x with
  | error e => exact fun both => h both.1
  | ok a => exact (next a h.1 h.2).congr (and_iff_right h.1).symm

theorem guard {c : Prop} [Decidable c] (h : ¬ c → Decides Q P x) :
    Decides (¬ c ∧ Q) P (if c then .error e else x) := by
  split
  next bad =>
    exact fun both => both.1 bad
  next good =>
    exact (h good).congr (and_iff_right good).symm

end Decides

theorem mapM_eq_ok : ∀ {ys : List β},
    xs.mapM f = .ok ys ↔ List.Forall₂ (fun x y => f x = .ok y) xs ys := by
  induction xs with
  | nil =>
    intro ys
    simp [pure, Except.pure, eq_comm]
  | cons x xs ih =>
    intro ys
    rw [mapM_cons, bind_eq_ok]
    constructor
    · rintro ⟨y, head, tail⟩
      obtain ⟨rest, others, same⟩ := bind_eq_ok.mp tail
      cases same
      exact .cons head (ih.mp others)
    · intro all
      cases all with
      | cons head tail => exact ⟨_, head, bind_eq_ok.mpr ⟨_, ih.mpr tail, rfl⟩⟩

theorem mapM_isOk (h : ∀ x ∈ xs, ∃ y, f x = .ok y) : ∃ ys, xs.mapM f = .ok ys := by
  induction xs with
  | nil => exact ⟨[], rfl⟩
  | cons x xs ih =>
    obtain ⟨y, head⟩ := h x mem_cons_self
    obtain ⟨ys, tail⟩ := ih fun x mem => h x (mem_cons_of_mem _ mem)
    exact ⟨y :: ys, mapM_eq_ok.mpr (.cons head (mapM_eq_ok.mp tail))⟩

theorem mapM_eq_map {r : α → β} (h : ∀ x ∈ xs, f x = .ok (r x)) : xs.mapM f = .ok (xs.map r) := by
  induction xs with
  | nil => rfl
  | cons x xs ih =>
    rw [mapM_cons, h x mem_cons_self, ih fun y mem => h y (mem_cons_of_mem x mem)]
    rfl

theorem mapM_pairs (h : xs.mapM f = .ok ys) :
    ∃ pairs : List (α × β), pairs.map Prod.fst = xs ∧ pairs.map Prod.snd = ys ∧
      ∀ p ∈ pairs, f p.1 = .ok p.2 := by
  have all := mapM_eq_ok.mp h
  clear h
  induction all with
  | nil => exact ⟨[], rfl, rfl, by simp⟩
  | @cons x y _ _ head _ ih =>
    obtain ⟨pairs, fsts, snds, each⟩ := ih
    refine ⟨(x, y) :: pairs, by simp [fsts], by simp [snds], ?_⟩
    intro p mem
    rcases mem_cons.mp mem with rfl | later
    · exact head
    · exact each p later

theorem exists_of_mem_mapM (h : xs.mapM f = .ok ys) {y : β} (mem : y ∈ ys) :
    ∃ x ∈ xs, f x = .ok y := by
  have all := mapM_eq_ok.mp h
  clear h
  induction all with
  | nil => cases mem
  | cons head _ ih =>
    rcases mem_cons.mp mem with rfl | later
    · exact ⟨_, mem_cons_self, head⟩
    · obtain ⟨x, inside, ok⟩ := ih later
      exact ⟨x, mem_cons_of_mem _ inside, ok⟩

theorem mapM_perm {xs' : List α} (same : xs.Perm xs')
    (h : xs.mapM f = .ok ys) : ∃ ys', xs'.mapM f = .ok ys' ∧ ys'.Perm ys := by
  obtain ⟨ys', all, perm⟩ := perm_comp_forall₂ same.symm (mapM_eq_ok.mp h)
  exact ⟨ys', mapM_eq_ok.mpr all, perm⟩

theorem mapM_flatMap {γ : Type} {pairs : List γ} {part : γ → List α}
    {result : γ → List β} (h : ∀ p ∈ pairs, (part p).mapM f = .ok (result p)) :
    (pairs.flatMap part).mapM f = .ok (pairs.flatMap result) := by
  induction pairs with
  | nil => rfl
  | cons p pairs ih =>
    rw [flatMap_cons, flatMap_cons, mapM_append]
    refine bind_eq_ok.mpr ⟨_, h p mem_cons_self, bind_eq_ok.mpr ⟨_, ?_, rfl⟩⟩
    exact ih fun p mem => h p (mem_cons_of_mem _ mem)

theorem exists_pairs {P : α → β → Prop} (h : ∀ x ∈ xs, ∃ y, P x y) :
    ∃ pairs : List (α × β), pairs.map Prod.fst = xs ∧ ∀ p ∈ pairs, P p.1 p.2 := by
  induction xs with
  | nil => exact ⟨[], rfl, by simp⟩
  | cons x xs ih =>
    obtain ⟨y, head⟩ := h x mem_cons_self
    obtain ⟨pairs, fsts, each⟩ := ih fun x mem => h x (mem_cons_of_mem _ mem)
    refine ⟨(x, y) :: pairs, by simp [fsts], ?_⟩
    intro p mem
    rcases mem_cons.mp mem with rfl | later
    · exact head
    · exact each p later

theorem forM_eq_ok {f : α → Except ε Unit} {u : Unit} :
    xs.forM f = .ok u ↔ ∀ x ∈ xs, f x = .ok () := by
  induction xs with
  | nil => simp [pure, Except.pure]
  | cons x xs ih =>
    change (f x >>= fun _ => xs.forM f) = .ok u ↔ _
    rw [bind_eq_ok, forall_mem_cons, ← ih]
    constructor
    · rintro ⟨_, head, tail⟩
      exact ⟨head, tail⟩
    · rintro ⟨head, tail⟩
      exact ⟨(), head, tail⟩

theorem forM_congr {f g : α → Except ε Unit} (h : ∀ x ∈ xs, f x = g x) : xs.forM f = xs.forM g := by
  induction xs with
  | nil => rfl
  | cons x xs ih =>
    change (f x >>= fun _ => xs.forM f) = (g x >>= fun _ => xs.forM g)
    rw [h x mem_cons_self, ih fun x mem => h x (mem_cons_of_mem _ mem)]

theorem foldlM_keeps {P : α → Prop} {f : α → β → Except ε α} :
    ∀ {xs : List β} {a r : α}, (∀ {a x a'}, x ∈ xs → P a → f a x = .ok a' → P a') → P a →
      xs.foldlM f a = .ok r → P r := by
  intro xs
  induction xs with
  | nil =>
    intro a r _ start ok
    cases ok
    exact start
  | cons x xs ih =>
    intro a r step start ok
    rw [foldlM_cons, bind_eq_ok] at ok
    obtain ⟨a', first, rest⟩ := ok
    exact ih (fun mem => step (mem_cons_of_mem x mem)) (step mem_cons_self start first) rest

theorem foldlM_step {f : α → β → Except ε α} {x : β} :
    ∀ {xs : List β} {a r : α}, xs.foldlM f a = .ok r → x ∈ xs → ∃ b b', f b x = .ok b' := by
  intro xs
  induction xs with
  | nil => simp
  | cons y ys ih =>
    intro a r ok mem
    rw [foldlM_cons, bind_eq_ok] at ok
    obtain ⟨a', first, rest⟩ := ok
    rcases mem_cons.mp mem with rfl | later
    · exact ⟨a, a', first⟩
    · exact ih rest later

end Gton.Lib.Fallible
