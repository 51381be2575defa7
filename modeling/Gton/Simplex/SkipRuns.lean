import Gton.Simplex.Moves

/-!
# Skip runs and settled parents

Whether the slots between a candidate and its parent are skipped is decided from the ends of
the runs of skipped slots, not by looking at each slot. `Runs` says that the ends are complete.
A finalization of the very last slot clears them without pruning a slot: its successor wraps to
0. Completeness is claimed until then.
-/

namespace Gton.Simplex

/-- The last slot; its successor is slot 0. -/
def lastSlot : UInt32 := 4294967295

structure Runs (v : View) : Prop where
  keyed : ∀ s k c, v.certs s k = some c → c.vote.slot = s ∧ c.vote.kind = k
  ascending : Ascending v.skipRuns
  ended : v.failed = false → v.certs lastSlot .finalize = none → ∀ j, v.horizon ≤ j →
    v.certs j .skip ≠ none → j + 1 ≠ 0 → v.certs (j + 1) .skip = none → j + 1 ∈ v.skipRuns

namespace Runs

variable {cfg : Config} {ctx : Ctx} {v w : View} {cert : Certificate}

theorem empty (certs : v.certs = fun _ _ => none) (skipRuns : v.skipRuns = []) : Runs v where
  keyed := by simp [certs]
  ascending := by simp [skipRuns]
  ended := by simp [certs]

theorem frame (h : Runs v) (same : SamePool v w) : Runs w where
  keyed := by rw [same.certs]; exact h.keyed
  ascending := by rw [same.skipRuns]; exact h.ascending
  ended ok := by rw [same.certs, same.skipRuns, same.horizon]; exact h.ended (same.failed ok)

theorem keyed_storeCert (h : Runs v) (cert : Certificate) {s : UInt32} {k : VoteKind}
    {c : Certificate} (hc : (v.storeCert cert).certs s k = some c) :
    c.vote.slot = s ∧ c.vote.kind = k := by
  rw [View.certs_storeCert] at hc
  split at hc
  next here =>
    cases hc
    exact ⟨here.1.symm, here.2.symm⟩
  · exact h.keyed s k c hc

theorem storeNotar (h : Runs v) (kind : cert.vote.kind = .notarize)
    (queue : List Deferred) : Runs { v.storeCert cert with queue } where
  keyed _ _ _ hc := h.keyed_storeCert cert hc
  ascending := h.ascending
  ended ok := by
    simp only [View.certs_storeCert, kind, reduceCtorEq, and_false, if_false]
    exact h.ended ok

theorem storeSkip (h : Runs v) {runs : List UInt32}
    (kind : cert.vote.kind = .skip) (kept : ∀ x ∈ v.skipRuns, x ≠ cert.vote.slot → x ∈ runs)
    (ended : v.certs (cert.vote.slot + 1) .skip = none → cert.vote.slot + 1 ∈ runs)
    (ascending : Ascending runs) : Runs { v.storeCert cert with skipRuns := runs } where
  keyed _ _ _ hc := h.keyed_storeCert cert hc
  ascending := ascending
  ended ok := by
    simp only [View.certs_storeCert, kind, reduceCtorEq, and_false, if_false, and_true]
    intro top j live here inner next
    by_cases hnext : j + 1 = cert.vote.slot
    · rw [if_pos hnext] at next
      cases next
    · rw [if_neg hnext] at next
      by_cases hj : j = cert.vote.slot
      · subst hj
        exact ended next
      · rw [if_neg hj] at here
        exact kept _ (h.ended ok top j live here inner next) hnext

/-- Finalizing prunes every run it clears, the last slot excepted. -/
theorem finalizeCert (h : Runs v) (kind : cert.vote.kind = .finalize) :
    Runs (v.finalizeCert cert) where
  keyed s k c hc := by
    by_cases hs : (v.finalizeCert cert).horizon ≤ s
    · rw [View.certs_finalizeCert hs] at hc
      exact h.keyed_storeCert cert hc
    · rw [show (v.finalizeCert cert).certs s = fun _ => none from
        if_pos (UInt32.not_le.mp hs)] at hc
      cases hc
  ascending := h.ascending.eraseUpTo _
  ended ok top j hj here inner next := by
    have le := View.le_raise v.horizon cert.vote.slot
    have lt := View.lt_raise v.horizon cert.vote.slot
    change View.raise v.horizon cert.vote.slot ≤ j at hj
    have hj' : View.raise v.horizon cert.vote.slot ≤ j + 1 := by grind
    have htop : View.raise v.horizon cert.vote.slot ≤ lastSlot := by unfold lastSlot; grind
    rw [View.certs_finalizeCert htop, View.certs_storeCert] at top
    rw [View.certs_finalizeCert hj, View.certs_storeCert] at here
    rw [View.certs_finalizeCert hj', View.certs_storeCert] at next
    simp only [kind, reduceCtorEq, and_false, if_false, and_true] at top here next
    split at top
    · cases top
    next below =>
      refine mem_eraseUpTo.mpr ⟨h.ended ok top j (UInt32.le_trans le hj) here inner next, ?_⟩
      unfold lastSlot at below
      grind

theorem move (h : Runs v) (m : Move cfg ctx v w) : Runs w := by
  rcases m.stores with same | ⟨cert, -, -, -, stored⟩
  · exact h.frame same
  · cases stored with
    | notar kind => exact h.storeNotar kind _
    | skip kind kept ended ascending => exact h.storeSkip kind kept ended (ascending h.ascending)
    | final kind => exact h.finalizeCert kind
    | failed =>
      exact
        { keyed := fun _ _ _ hc => h.keyed_storeCert _ hc
          ascending := h.ascending
          ended := fun ok => by cases ok }

theorem skipped (h : Runs v) (ok : v.failed = false) (top : v.certs lastSlot .finalize = none)
    {first stop : UInt32} (live : v.horizon ≤ first) (start : v.certs first .skip ≠ none)
    (bound : lowerBound v.skipRuns first = some stop) (i : UInt32) (le : first ≤ i)
    (lt : i < stop) : v.certs i .skip ≠ none := by
  -- Walk up from `first`: a slot without a skip certificate would end the run before `stop`.
  have walk (n : Nat) : ∀ j : UInt32, j.toNat = first.toNat + n → j < stop →
      v.certs j .skip ≠ none := by
    induction n with
    | zero =>
      intro j hj _
      rwa [UInt32.toNat_inj.mp hj]
    | succ n ih =>
      intro j hj hstop none_here
      have above : first < j := UInt32.lt_iff_toNat_lt.mpr (by omega)
      have up : (j - 1).toNat = first.toNat + n := by
        rw [UInt32.toNat_sub_of_le _ _ (by grind)]
        simp [hj]
      have before : j - 1 < stop := by grind
      have next : j - 1 + 1 = j := by grind
      have mem := h.ended ok top (j - 1) (by grind) (ih (j - 1) up before) (by grind)
        (by rw [next]; exact none_here)
      have := lowerBound_le h.ascending bound mem (by grind)
      grind
  refine walk (i.toNat - first.toNat) i ?_ lt
  have := UInt32.le_iff_toNat_le.mp le
  omega

end Runs

/-! ## Settled parents -/

/-- The parent condition of a notarize vote: the parent is the last finalized block or has a
notarize certificate, and every slot in between has a skip certificate. -/
structure Pool.Settles (p : Pool) (c : Candidate) : Prop where
  parent : p.lastFinalized = c.parent ∨ (c.parent.defined = true ∧
    ∃ cert, p.certAt c.parent.id.slot .notarize = some cert ∧ cert.vote = notarizeVote c.parent.id)
  skipped : ∀ j, c.parent.nextSlot ≤ j → j < c.id.slot →
    ∃ cert, p.certAt j .skip = some cert ∧ cert.vote.kind = .skip ∧ cert.vote.slot = j

/-- The skip part: below the candidate's slot every slot from `next` on is skipped. -/
theorem Runs.evaluateSkips {v : View} {p : Pool} (h : Runs v) (same : v.Matches p)
    (ok : v.failed = false) (top : v.certs lastSlot .finalize = none) {next slot : UInt32}
    (live : v.horizon ≤ next) (settled : p.evaluateSkips next slot = .done .ok) (j : UInt32)
    (le : next ≤ j) (lt : j < slot) : v.certs j .skip ≠ none := by
  unfold Pool.evaluateSkips at settled
  split at settled
  next here =>
    subst here
    exact absurd lt (UInt32.not_lt.mpr le)
  · split at settled
    · cases settled
    next cert hcert =>
      have start : v.certs next .skip ≠ none := by
        rw [← same.certs]
        cases hs : p.slots.get? next with
        | none => simp [hs] at hcert
        | some s =>
          have found : s.skipCert = some cert := by simpa [hs] using hcert
          simp [Pool.certAt, PoolSlot.certByKind, hs, found]
      split at settled
      · cases settled
      next stop hstop =>
        split at settled
        next within =>
          rw [same.skipRuns] at hstop
          exact h.skipped ok top live start hstop j le (UInt32.lt_of_lt_of_le lt within)
        · cases settled

/-- What the engine's decision rests on. -/
theorem Runs.settles {v : View} {p : Pool} {c : Candidate} (h : Runs v) (same : v.Matches p)
    (ok : v.failed = false) (top : v.certs lastSlot .finalize = none)
    (settled : p.evaluateParentWait c = .done .ok) : p.Settles c := by
  have skips (live : v.horizon ≤ c.parent.nextSlot)
      (hs : p.evaluateSkips c.parent.nextSlot c.id.slot = .done .ok) (j : UInt32)
      (le : c.parent.nextSlot ≤ j) (lt : j < c.id.slot) :
      ∃ cert, p.certAt j .skip = some cert ∧ cert.vote.kind = .skip ∧ cert.vote.slot = j := by
    obtain ⟨cert, hc⟩ :=
      Option.ne_none_iff_exists'.mp (h.evaluateSkips same ok top live hs j le lt)
    obtain ⟨slot, kind⟩ := h.keyed _ _ _ hc
    exact ⟨cert, (same.certs j .skip).trans hc, kind, slot⟩
  unfold Pool.evaluateParentWait at settled
  dsimp only at settled
  split at settled
  · cases settled
  · split at settled
    · cases settled
    next live =>
      rw [same.horizon, UInt32.not_lt] at live
      split at settled
      · cases settled
      · split at settled
        · split at settled
          · cases settled
          next final =>
            exact ⟨.inl (not_not.mp final), skips live settled⟩
        next strict =>
          split at settled
          · cases settled
          next cert hcert =>
            split at settled
            · cases settled
            next same_id =>
              refine ⟨.inr ⟨?_, cert, hcert, ?_⟩, skips live settled⟩
              · by_contra undefined
                unfold ParentID.nextSlot at live strict
                rw [if_neg undefined] at live strict
                rw [same.horizon] at strict
                exact strict (UInt32.le_antisymm UInt32.zero_le live)
              · have key := h.keyed _ _ _ ((same.certs _ .notarize).symm.trans hcert)
                exact congrArg₂ Vote.mk key.2 (not_not.mp same_id)

end Gton.Simplex
