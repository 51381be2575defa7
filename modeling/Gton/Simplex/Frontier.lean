import Gton.Simplex.SkipRuns

/-!
# The frontier of the pool

What the pool knows above the finalized horizon, and the parents it offers there. The stored
certificates alone determine the run ends and the best parent of every slot without a skip
certificate. Slots stay below a bound, so that the slot after one is never 0.
-/

namespace Gton.Simplex

/-- Position of a parent: genesis first, then by slot. -/
def ParentID.rank (q : ParentID) : Nat := if q.defined then q.id.slot.toNat + 1 else 0

theorem CandidateID.compare_self (a : CandidateID) : a.compare a = .eq := by
  simp [CandidateID.compare]

theorem ParentID.compare_self (q : ParentID) : q.compare q = .eq := by
  simp [ParentID.compare, CandidateID.compare_self]

variable {r : ParentID}

theorem ParentID.compare_of_rank_lt {q : ParentID} (h : q.rank < r.rank) : q.compare r = .lt := by
  unfold rank at h
  unfold ParentID.compare CandidateID.compare
  cases hq : q.defined <;> cases hr : r.defined <;> simp only [hq, hr] at h ⊢
  · simp at h
  · simp
  · simp at h
  · have lt : q.id.slot < r.id.slot := UInt32.lt_iff_toNat_lt.mpr (by simpa using h)
    have ne : q.id.slot ≠ r.id.slot := by grind
    simp [lt, ne]

theorem ParentID.compare_of_rank_gt {q : ParentID} (h : r.rank < q.rank) : q.compare r = .gt := by
  unfold rank at h
  unfold ParentID.compare CandidateID.compare
  cases hq : q.defined <;> cases hr : r.defined <;> simp only [hq, hr] at h ⊢
  · simp at h
  · simp at h
  · simp
  · have lt : r.id.slot < q.id.slot := UInt32.lt_iff_toNat_lt.mpr (by simpa using h)
    have ne : q.id.slot ≠ r.id.slot := by grind
    have not_lt : ¬ q.id.slot < r.id.slot := by grind
    simp [not_lt, ne]

/-! ## Highest parents -/

/-- `addAvailableBase` on the optional base. -/
def addBase (o : Option ParentID) (q : ParentID) : Option ParentID :=
  match o with
  | none => some q
  | some b => if q.compare b ≠ .lt then some q else some b

/-- Add the base of another slot, if it has one. -/
def mergeBase (o : Option ParentID) : Option ParentID → Option ParentID
  | some q => addBase o q
  | none => o

/-- `o` is the highest parent of a set, if the set has any. -/
structure Highest (A : ParentID → Prop) (o : Option ParentID) : Prop where
  mem : ∀ q, o = some q → A q
  top : ∀ q, o = some q → ∀ r, A r → r.rank ≤ q.rank
  empty : o = none → ∀ r, ¬ A r

namespace Highest

variable {A B : ParentID → Prop} {o o' : Option ParentID}

theorem congr (h : Highest A o) (same : ∀ r, B r ↔ A r) : Highest B o where
  mem q hq := (same q).mpr (h.mem q hq)
  top q hq r hr := h.top q hq r ((same r).mp hr)
  empty ho r hr := h.empty ho r ((same r).mp hr)

theorem add (h : Highest A o) {q : ParentID} (inj : ∀ r, A r → r.rank = q.rank → r = q) :
    Highest (fun r => A r ∨ r = q) (addBase o q) := by
  cases o with
  | none =>
    refine ⟨?_, ?_, fun absent => by cases absent⟩
    · rintro _ ⟨rfl⟩
      exact .inr rfl
    · rintro _ ⟨rfl⟩ r (hr | rfl)
      · exact (h.empty rfl r hr).elim
      · exact Nat.le_refl _
  | some b =>
    have memb := h.mem b rfl
    have topb := h.top b rfl
    unfold addBase
    dsimp only
    split
    next above =>
      have le : b.rank ≤ q.rank := by
        by_contra lower
        exact above (ParentID.compare_of_rank_lt (Nat.not_le.mp lower))
      refine ⟨?_, ?_, fun absent => by cases absent⟩
      · rintro _ ⟨rfl⟩
        exact .inr rfl
      · rintro _ ⟨rfl⟩ r (hr | rfl)
        · exact Nat.le_trans (topb r hr) le
        · exact Nat.le_refl _
    next below =>
      have le : q.rank ≤ b.rank := by
        by_contra higher
        rw [ParentID.compare_of_rank_gt (Nat.not_le.mp higher)] at below
        exact below (by simp)
      refine ⟨?_, ?_, fun absent => by cases absent⟩
      · rintro _ ⟨rfl⟩
        exact .inl memb
      · rintro _ ⟨rfl⟩ r (hr | rfl)
        · exact topb r hr
        · exact le

theorem join (h : Highest A o) (h' : Highest B o')
    (inj : ∀ r s, A r → B s → r.rank = s.rank → r = s) :
    Highest (fun r => A r ∨ B r) (mergeBase o o') := by
  cases o' with
  | none =>
    refine h.congr fun r => ⟨fun hr => hr.resolve_right (h'.empty rfl r), .inl⟩
  | some q =>
    have added := h.add fun r hr same => inj r q hr (h'.mem q rfl) same
    refine ⟨fun p hp => ?_, fun p hp r hr => ?_, fun absent r => ?_⟩
    · rcases added.mem p hp with hp | rfl
      · exact .inl hp
      · exact .inr (h'.mem _ rfl)
    · rcases hr with hr | hr
      · exact added.top p hp r (.inl hr)
      · exact Nat.le_trans (h'.top q rfl r hr) (added.top p hp q (.inr rfl))
    · exact (added.empty absent q (.inr rfl)).elim

theorem unique (h : Highest A o) (h' : Highest A o')
    (inj : ∀ r s, A r → A s → r.rank = s.rank → r = s) : o = o' := by
  cases o with
  | none =>
    cases o' with
    | none => rfl
    | some q => exact (h.empty rfl q (h'.mem q rfl)).elim
  | some p =>
    cases o' with
    | none => exact (h'.empty rfl p (h.mem p rfl)).elim
    | some q =>
      have hp := h.mem p rfl
      have hq := h'.mem q rfl
      rw [inj p q hp hq (Nat.le_antisymm (h'.top q rfl p hp) (h.top p rfl q hq))]

end Highest

/-! ## The frontier -/

/-- The part of the pool that decides parents. -/
structure Frontier where
  horizon : UInt32
  certs : UInt32 → VoteKind → Option Certificate
  base : UInt32 → Option ParentID
  last : ParentID
  runs : List UInt32
  now : UInt32

/-- The base recorded for a slot. -/
def Pool.base (p : Pool) (s : UInt32) : Option ParentID :=
  (p.slots.get? s).bind PoolSlot.availableBase

def Pool.frontier (p : Pool) : Frontier where
  horizon := p.slots.firstNonFinalized
  certs := p.certAt
  base := p.base
  last := p.lastFinalized
  runs := p.skipRuns
  now := p.now

namespace Frontier

def Skipped (f : Frontier) (s : UInt32) : Prop := f.certs s .skip ≠ none

def Settled (f : Frontier) (s : UInt32) : Prop := f.certs s .notarize ≠ none ∨ f.Skipped s

/-- The last finalized candidate, genesis before the first, or a notarized candidate. -/
def Knows (f : Frontier) (q : ParentID) : Prop :=
  q = f.last ∨ ∃ cert, f.certs q.id.slot .notarize = some cert ∧ q = parent cert.vote.id

/-- A candidate of slot `k` may have the parent `q`. -/
structure Offers (f : Frontier) (k : UInt32) (q : ParentID) : Prop where
  known : f.Knows q
  below : q.defined = true → q.id.slot < k
  skipped : ∀ j, q.nextSlot ≤ j → j < k → f.Skipped j

/-- `n` is the first slot after `i` without a skip certificate. -/
structure Next (f : Frontier) (i n : UInt32) : Prop where
  above : i < n
  skipped : ∀ j, i < j → j < n → f.Skipped j
  stop : ¬ f.Skipped n

variable {i n b k s : UInt32} {f g : Frontier} {q : ParentID} {cert : Certificate}

theorem Next.unique {m : UInt32} (hn : f.Next i n) (hm : f.Next i m) : n = m := by
  by_contra ne
  rcases UInt32.lt_or_lt_of_ne ne with lt | lt
  · exact hn.stop (hm.skipped n hn.above lt)
  · exact hm.stop (hn.skipped m hm.above lt)

/-- Certificates are of live slots below `b`; the last finalized slot is just below the horizon. -/
structure Rooted (b : UInt32) (f : Frontier) : Prop where
  bound : b ≤ lastSlot
  keyed : ∀ s k c, f.certs s k = some c → c.vote.slot = s ∧ c.vote.kind = k
  live : ∀ s k, f.certs s k ≠ none → f.horizon ≤ s ∧ s < b
  closed : f.last.nextSlot = f.horizon
  final : f.last.defined = true → f.last.id.slot < b
  origin : f.last.defined = false → f.last = genesis

/-- Every open slot has the highest parent as its base. -/
structure Founded (b : UInt32) (f : Frontier) : Prop extends f.Rooted b where
  bases : ∀ k, f.horizon ≤ k → ¬ f.Skipped k → Highest (f.Offers k) (f.base k)

/-- The run ends are the slots after a skipped one that are not skipped. -/
structure Ended (f : Frontier) : Prop where
  ascending : Ascending f.runs
  ends : ∀ x, x ∈ f.runs ↔ ∃ j, x = j + 1 ∧ f.Skipped j ∧ ¬ f.Skipped (j + 1)

/-- The present slot has no open slot behind it. -/
structure Present (b : UInt32) (f : Frontier) : Prop where
  live : f.horizon ≤ f.now
  below : f.now ≤ b
  settled : ∀ j, f.horizon ≤ j → j < f.now → f.Settled j

/-! ## Known parents -/

namespace Rooted

section

variable (h : f.Rooted b)
include h

theorem toNat_succ (lt : s < b) : (s + 1).toNat = s.toNat + 1 := by
  have bound := UInt32.lt_iff_toNat_lt.mp (UInt32.lt_of_lt_of_le lt h.bound)
  have top : lastSlot.toNat = 4294967295 := rfl
  rw [UInt32.toNat_add, UInt32.toNat_one]
  omega

theorem lt_succ (lt : s < b) : s < s + 1 := by
  have := h.toNat_succ lt
  apply UInt32.lt_iff_toNat_lt.mpr
  omega

theorem known_below (known : f.Knows q) (defined : q.defined = true) : q.id.slot < b := by
  rcases known with rfl | ⟨cert, hc, -⟩
  · exact h.final defined
  · exact (h.live _ .notarize (by simp [hc])).2

theorem rank_eq (known : f.Knows q) : q.nextSlot.toNat = q.rank := by
  unfold ParentID.nextSlot ParentID.rank
  by_cases defined : q.defined = true
  · rw [if_pos defined, if_pos defined, h.toNat_succ (h.known_below known defined)]
  · rw [if_neg defined, if_neg defined]
    rfl

theorem notarized_above (hc : f.certs q.id.slot .notarize = some cert)
    (hq : q = parent cert.vote.id) : f.horizon < q.nextSlot := by
  obtain ⟨live, below⟩ := h.live _ .notarize (by rw [hc]; simp)
  have next : q.nextSlot = q.id.slot + 1 := by rw [hq]; rfl
  rw [next]
  exact UInt32.lt_of_le_of_lt live (h.lt_succ below)

theorem known_unique (hq : f.Knows q) (hr : f.Knows r) (same : q.rank = r.rank) : q = r := by
  have next : q.nextSlot = r.nextSlot := by
    apply UInt32.toNat_inj.mp
    rw [h.rank_eq hq, h.rank_eq hr, same]
  have closed := h.closed
  rcases hq with lastq | ⟨cq, hcq, eq⟩
  · rcases hr with lastr | ⟨cr, hcr, er⟩
    · rw [lastq, lastr]
    · have above := h.notarized_above hcr er
      rw [← next, lastq, closed] at above
      exact absurd above (UInt32.lt_irrefl _)
  · rcases hr with lastr | ⟨cr, hcr, er⟩
    · have above := h.notarized_above hcq eq
      rw [next, lastr, closed] at above
      exact absurd above (UInt32.lt_irrefl _)
    · have slots : q.id.slot = r.id.slot := by
        have hq' : q.nextSlot = q.id.slot + 1 := by rw [eq]; rfl
        have hr' : r.nextSlot = r.id.slot + 1 := by rw [er]; rfl
        grind
      rw [slots, hcr] at hcq
      cases hcq
      rw [eq, er]

theorem next_le (known : f.Knows q) (below : q.defined = true → q.id.slot < k) :
    q.nextSlot ≤ k := by
  unfold ParentID.nextSlot
  by_cases defined : q.defined = true
  · have lt := h.lt_succ (h.known_below known defined)
    grind
  · rw [if_neg defined]
    exact UInt32.zero_le

theorem below_of_next (known : f.Knows q) (le : q.nextSlot ≤ k) (defined : q.defined = true) :
    q.id.slot < k := by
  have lt := h.lt_succ (h.known_below known defined)
  rw [show q.nextSlot = q.id.slot + 1 from if_pos defined] at le
  exact UInt32.lt_of_lt_of_le lt le

end

end Rooted

/-- A known parent is offered at `k` when the slots between them are skipped. -/
theorem offers_iff (h : f.Rooted b) :
    f.Offers k q ↔ f.Knows q ∧ q.nextSlot ≤ k ∧ ∀ j, q.nextSlot ≤ j → j < k → f.Skipped j := by
  constructor
  · intro o
    exact ⟨o.known, h.next_le o.known o.below, o.skipped⟩
  · rintro ⟨known, le, skipped⟩
    exact ⟨known, h.below_of_next known le, skipped⟩

/-! ## A new certificate -/

def put (f : Frontier) (cert : Certificate) : Frontier :=
  { f with
    certs := fun s k => if s = cert.vote.slot ∧ k = cert.vote.kind then some cert else f.certs s k }

def rebase (f : Frontier) (base : UInt32 → Option ParentID) : Frontier := { f with base }

def offer (f : Frontier) (n : UInt32) (q : ParentID) : Frontier :=
  f.rebase (Function.update f.base n (addBase (f.base n) q))

/-- The base of a skipped slot is handed to the next open one. -/
def handOver (f : Frontier) (i n : UInt32) : Frontier :=
  f.rebase (Function.update f.base n (mergeBase (f.base n) (f.base i)))

/-- Prune up to a finalized slot. -/
def finalize (f : Frontier) (cert : Certificate) : Frontier :=
  { f with
    horizon := cert.vote.slot + 1
    certs := fun s k => if s < cert.vote.slot + 1 then none else f.certs s k
    base := fun s => if s < cert.vote.slot + 1 then none else f.base s
    last := parent cert.vote.id }

theorem Founded.rebase (h : f.Rooted b) {base : UInt32 → Option ParentID}
    (bases : ∀ k, f.horizon ≤ k → ¬ f.Skipped k → Highest (f.Offers k) (base k)) :
    (f.rebase base).Founded b :=
  { h with
    bases := fun k hk open_ =>
      (bases k hk open_).congr fun _ =>
        ⟨fun o => ⟨o.known, o.below, o.skipped⟩, fun o => ⟨o.known, o.below, o.skipped⟩⟩ }

section
variable {cert : Certificate} {n : UInt32}

theorem Rooted.put (h : f.Rooted b) (live : f.horizon ≤ cert.vote.slot)
    (small : cert.vote.slot < b) : (f.put cert).Rooted b :=
  { h with
    keyed := by
      intro s k c hc
      change (if s = cert.vote.slot ∧ k = cert.vote.kind then some cert else f.certs s k) = _ at hc
      split at hc
      next here =>
        cases hc
        exact ⟨here.1.symm, here.2.symm⟩
      · exact h.keyed s k c hc
    live := by
      intro s k hc
      change (if s = cert.vote.slot ∧ k = cert.vote.kind then some cert else f.certs s k) ≠ _ at hc
      split at hc
      next here =>
        rw [here.1]
        exact ⟨live, small⟩
      · exact h.live s k hc }

/-! ### Notarize -/

theorem skipped_put_of_ne (kind : cert.vote.kind ≠ .skip) (s : UInt32) :
    (f.put cert).Skipped s ↔ f.Skipped s := by
  unfold Skipped put
  dsimp only
  rw [if_neg fun here => kind here.2.symm]

theorem skipped_put (kind : cert.vote.kind = .skip) (s : UInt32) :
    (f.put cert).Skipped s ↔ s = cert.vote.slot ∨ f.Skipped s := by
  unfold Skipped put
  dsimp only
  by_cases here : s = cert.vote.slot
  · simp [here, kind]
  · simp [here]

theorem knows_put (kind : cert.vote.kind = .notarize)
    (absent : f.certs cert.vote.slot .notarize = none) (q : ParentID) :
    (f.put cert).Knows q ↔ f.Knows q ∨ q = parent cert.vote.id := by
  unfold Knows put
  dsimp only
  constructor
  · rintro (last | ⟨c, hc, hq⟩)
    · exact .inl (.inl last)
    · split at hc
      · cases hc
        exact .inr hq
      · exact .inl (.inr ⟨c, hc, hq⟩)
  · rintro ((last | ⟨c, hc, hq⟩) | rfl)
    · exact .inl last
    · refine .inr ⟨c, ?_, hq⟩
      rw [if_neg, hc]
      rintro ⟨here, -⟩
      rw [here, absent] at hc
      cases hc
    · exact .inr ⟨cert, if_pos ⟨rfl, kind.symm⟩, rfl⟩

theorem knows_put_of_ne (kind : cert.vote.kind ≠ .notarize) (q : ParentID) :
    (f.put cert).Knows q ↔ f.Knows q := by
  unfold Knows put
  dsimp only
  rw [if_neg fun here => kind here.2.symm]

section

variable (live : f.horizon ≤ cert.vote.slot) (small : cert.vote.slot < b)
  (next : f.Next cert.vote.slot n)
include live small next

theorem notarize_offers (h : f.Rooted b) (kind : cert.vote.kind = .notarize)
    (absent : f.certs cert.vote.slot .notarize = none) (open_ : ¬ f.Skipped k) (q : ParentID) :
    (f.put cert).Offers k q ↔ f.Offers k q ∨ (k = n ∧ q = parent cert.vote.id) := by
  have other : cert.vote.kind ≠ .skip := by simp [kind]
  have up := h.lt_succ small
  rw [offers_iff (h.put live small), offers_iff h, knows_put kind absent]
  simp only [skipped_put_of_ne other]
  constructor
  · rintro ⟨known | rfl, le, skipped⟩
    · exact .inl ⟨known, le, skipped⟩
    · have after : f.Next cert.vote.slot k := by
        refine ⟨UInt32.lt_of_lt_of_le up le, fun j lt => skipped j ?_, open_⟩
        change cert.vote.slot + 1 ≤ j
        grind
      exact .inr ⟨after.unique next, rfl⟩
  · rintro (⟨known, le, skipped⟩ | ⟨rfl, rfl⟩)
    · exact ⟨.inl known, le, skipped⟩
    · refine ⟨.inr rfl, ?_, fun j le => next.skipped j ?_⟩
      · change cert.vote.slot + 1 ≤ k
        have := next.above
        grind
      · exact UInt32.lt_of_lt_of_le up le

theorem Founded.notarize (h : f.Founded b) (kind : cert.vote.kind = .notarize)
    (absent : f.certs cert.vote.slot .notarize = none) :
    ((f.put cert).offer n (parent cert.vote.id)).Founded b := by
  have rooted := h.toRooted.put live small
  apply Founded.rebase rooted
  intro k hk open_
  rw [skipped_put_of_ne (by simp [kind])] at open_
  have same := notarize_offers live small next h.toRooted kind absent open_
  have old := h.bases k hk open_
  by_cases here : k = n
  · subst here
    rw [Function.update_self]
    have added := old.add (q := parent cert.vote.id) fun r hr rank =>
      rooted.known_unique ((same r).mpr (.inl hr)).known
        ((knows_put kind absent _).mpr (.inr rfl)) rank
    exact added.congr fun r => by rw [same]; simp
  · rw [Function.update_of_ne here]
    exact old.congr fun r => by rw [same]; simp [here]

/-! ### Skip -/

theorem skip_offers (h : f.Rooted b) (kind : cert.vote.kind = .skip) (open_ : ¬ f.Skipped k)
    (q : ParentID) :
    (f.put cert).Offers k q ↔ f.Offers k q ∨ (k = n ∧ f.Offers cert.vote.slot q) := by
  rw [offers_iff (h.put live small), offers_iff h, offers_iff h,
    knows_put_of_ne (by simp [kind])]
  simp only [skipped_put kind]
  constructor
  · rintro ⟨known, le, skipped⟩
    by_cases within : q.nextSlot ≤ cert.vote.slot ∧ cert.vote.slot < k
    · -- The new certificate closes the gap between the parents of its slot and `k`.
      have after : f.Next cert.vote.slot k := by
        refine ⟨within.2, fun j above below => ?_, open_⟩
        rcases skipped j (by grind) below with rfl | old
        · exact absurd above (UInt32.lt_irrefl _)
        · exact old
      refine .inr ⟨after.unique next, known, within.1, fun j from_ below => ?_⟩
      rcases skipped j from_ (by grind) with rfl | old
      · exact absurd below (UInt32.lt_irrefl _)
      · exact old
    · refine .inl ⟨known, le, fun j from_ below => ?_⟩
      rcases skipped j from_ below with rfl | old
      · exact absurd ⟨from_, below⟩ within
      · exact old
  · rintro (⟨known, le, skipped⟩ | ⟨rfl, known, le, skipped⟩)
    · exact ⟨known, le, fun j from_ below => .inr (skipped j from_ below)⟩
    · have above := next.above
      refine ⟨known, by grind, fun j from_ below => ?_⟩
      by_cases low : j < cert.vote.slot
      · exact .inr (skipped j from_ low)
      · by_cases here : j = cert.vote.slot
        · exact .inl here
        · exact .inr (next.skipped j (by grind) below)

theorem Founded.skip (h : f.Founded b) (kind : cert.vote.kind = .skip)
    (absent : ¬ f.Skipped cert.vote.slot) : ((f.put cert).handOver cert.vote.slot n).Founded b := by
  have rooted := h.toRooted.put live small
  apply Founded.rebase rooted
  intro k hk open_
  rw [skipped_put kind, not_or] at open_
  have same := skip_offers live small next h.toRooted kind open_.2
  have old := h.bases k hk open_.2
  by_cases here : k = n
  · subst here
    rw [Function.update_self]
    have joined := old.join (h.bases _ live absent) fun r s hr hs rank =>
      h.known_unique hr.known hs.known rank
    exact joined.congr fun r => by rw [same]; simp
  · rw [Function.update_of_ne here]
    exact old.congr fun r => by rw [same]; simp [here]

omit live in
theorem Ended.skip (h : f.Ended) (rooted : f.Rooted b) (kind : cert.vote.kind = .skip)
    (certs : g.certs = (f.put cert).certs)
    (runs : g.runs = if n = cert.vote.slot + 1 then insertSorted (cert.vote.slot + 1)
      (eraseSorted f.runs cert.vote.slot) else eraseSorted f.runs cert.vote.slot) :
    g.Ended := by
  have skipped (s : UInt32) : g.Skipped s ↔ s = cert.vote.slot ∨ f.Skipped s := by
    rw [← skipped_put kind, Skipped, certs]
    rfl
  have up := rooted.lt_succ small
  have first : n = cert.vote.slot + 1 ↔ ¬ f.Skipped (cert.vote.slot + 1) := by
    constructor
    · rintro rfl
      exact next.stop
    · intro stop
      refine next.unique ⟨up, fun j above below => ?_, stop⟩
      grind
  constructor
  · rw [runs]
    split
    · exact (h.ascending.eraseSorted _).insertSorted _
    · exact h.ascending.eraseSorted _
  · intro x
    have mem : x ∈ g.runs ↔ (n = cert.vote.slot + 1 ∧ x = cert.vote.slot + 1) ∨
        (x ∈ f.runs ∧ x ≠ cert.vote.slot) := by
      rw [runs]
      split
      next here =>
        rw [mem_insertSorted, mem_eraseSorted]
        simp [here]
      next here =>
        rw [mem_eraseSorted]
        simp [here]
    rw [mem, first, h.ends]
    simp only [skipped, not_or]
    constructor
    · rintro (⟨stop, rfl⟩ | ⟨⟨j, rfl, hj, stop⟩, ne⟩)
      · exact ⟨_, rfl, .inl rfl, by grind, stop⟩
      · exact ⟨j, rfl, .inr hj, ne, stop⟩
    · rintro ⟨j, rfl, rfl | hj, ne, stop⟩
      · exact .inl ⟨stop, rfl⟩
      · exact .inr ⟨⟨j, rfl, hj, stop⟩, ne⟩

end

/-! ### Finalize -/

theorem finalize_certs (above : cert.vote.slot + 1 ≤ s) :
    (f.finalize cert).certs s = f.certs s := by
  funext k
  exact if_neg (UInt32.not_lt.mpr above)

theorem finalize_certs_below (below : s < cert.vote.slot + 1) (k : VoteKind) :
    (f.finalize cert).certs s k = none := if_pos below

/-- Pruning forgets the finalization's own certificate. -/
theorem finalize_put (up : cert.vote.slot < cert.vote.slot + 1)
    (certs : g.certs = (f.put cert).certs) : (g.finalize cert).certs = (f.finalize cert).certs := by
  funext s k
  by_cases above : cert.vote.slot + 1 ≤ s
  · rw [finalize_certs above, finalize_certs above, certs]
    exact if_neg fun h => by grind
  · rw [finalize_certs_below (UInt32.not_le.mp above),
      finalize_certs_below (UInt32.not_le.mp above)]

theorem Rooted.finalize (h : f.Rooted b) (small : cert.vote.slot < b) :
    (f.finalize cert).Rooted b where
  bound := h.bound
  keyed := by
    intro s k c hc
    by_cases above : cert.vote.slot + 1 ≤ s
    · rw [finalize_certs above] at hc
      exact h.keyed s k c hc
    · rw [finalize_certs_below (UInt32.not_le.mp above)] at hc
      cases hc
  live := by
    intro s k hc
    by_cases above : cert.vote.slot + 1 ≤ s
    · rw [finalize_certs above] at hc
      exact ⟨above, (h.live s k hc).2⟩
    · exact absurd (finalize_certs_below (UInt32.not_le.mp above) k) hc
  closed := rfl
  final _ := small
  origin undefined := by cases undefined

theorem skipped_finalize (above : cert.vote.slot + 1 ≤ s) :
    (f.finalize cert).Skipped s ↔ f.Skipped s := by
  unfold Skipped
  rw [finalize_certs above]

theorem finalize_offers (h : f.Rooted b) (live : f.horizon ≤ cert.vote.slot)
    (small : cert.vote.slot < b) (unskipped : ¬ f.Skipped cert.vote.slot)
    (agree : ∀ c, f.certs cert.vote.slot .notarize = some c → c.vote.id = cert.vote.id)
    (next : f.Next cert.vote.slot n) (above : cert.vote.slot + 1 ≤ k) (open_ : ¬ f.Skipped k)
    (q : ParentID) :
    (f.finalize cert).Offers k q ↔ f.Offers k q ∨ (k = n ∧ q = parent cert.vote.id) := by
  have up := h.lt_succ small
  rw [offers_iff (h.finalize small), offers_iff h]
  constructor
  · rintro ⟨rfl | ⟨c, hc, hq⟩, le, skipped⟩
    · have after : f.Next cert.vote.slot k := by
        refine ⟨UInt32.lt_of_lt_of_le up above, fun j lt below => ?_, open_⟩
        have from_ : cert.vote.slot + 1 ≤ j := by grind
        exact (skipped_finalize from_).mp (skipped j from_ below)
      exact .inr ⟨after.unique next, rfl⟩
    · have from_ : cert.vote.slot + 1 ≤ q.id.slot := by
        by_contra low
        rw [finalize_certs_below (UInt32.not_le.mp low)] at hc
        cases hc
      rw [finalize_certs from_] at hc
      refine .inl ⟨.inr ⟨c, hc, hq⟩, le, fun j lt below => ?_⟩
      have lower := h.lt_succ (h.live _ .notarize (by rw [hc]; simp)).2
      have shape : q.nextSlot = q.id.slot + 1 := by rw [hq]; rfl
      rw [shape] at lt
      exact (skipped_finalize (by grind)).mp (skipped j (by rw [shape]; exact lt) below)
  · rintro (⟨known, le, skipped⟩ | ⟨rfl, rfl⟩)
    · -- No parent from below the finalized slot reaches past it.
      have reach : cert.vote.slot < q.nextSlot := by
        by_contra low
        exact unskipped (skipped _ (UInt32.not_lt.mp low) (UInt32.lt_of_lt_of_le up above))
      have tail (j : UInt32) (from_ : q.nextSlot ≤ j) (below : j < k) :
          (f.finalize cert).Skipped j :=
        (skipped_finalize (by grind)).mpr (skipped j from_ below)
      refine ⟨?_, le, tail⟩
      rcases known with last | ⟨c, hc, hq⟩
      · rw [last, h.closed] at reach
        exact absurd reach (UInt32.not_lt.mpr live)
      · by_cases here : q.id.slot = cert.vote.slot
        · rw [here] at hc
          refine .inl ?_
          rw [hq, agree c hc]
          rfl
        · have shape : q.nextSlot = q.id.slot + 1 := by rw [hq]; rfl
          refine .inr ⟨c, ?_, hq⟩
          rw [finalize_certs (by grind), hc]
    · refine ⟨.inl rfl, above, fun j from_ below => ?_⟩
      exact (skipped_finalize from_).mpr (next.skipped j (UInt32.lt_of_lt_of_le up from_) below)

section

variable (h : f.Founded b) (live : f.horizon ≤ cert.vote.slot) (small : cert.vote.slot < b)
  (unskipped : ¬ f.Skipped cert.vote.slot)
include h live small unskipped

/-- Finalizing a notarized slot: its candidate was offered already. -/
theorem Founded.finalize_notarized {c : Certificate}
    (notarized : f.certs cert.vote.slot .notarize = some c) (agree : c.vote.id = cert.vote.id)
    (next : f.Next cert.vote.slot n) : (f.finalize cert).Founded b := by
  have up := h.lt_succ small
  have agree' (c' : Certificate) (hc : f.certs cert.vote.slot .notarize = some c') :
      c'.vote.id = cert.vote.id := by
    rw [notarized] at hc
    cases hc
    exact agree
  have offered : f.Offers n (parent cert.vote.id) := by
    refine ⟨.inr ⟨c, notarized, by rw [agree]⟩, fun _ => next.above, fun j from_ below => ?_⟩
    exact next.skipped j (UInt32.lt_of_lt_of_le up from_) below
  refine { h.toRooted.finalize small with bases := fun k above open_ => ?_ }
  change cert.vote.slot + 1 ≤ k at above
  rw [skipped_finalize above] at open_
  have same := finalize_offers h.toRooted live small unskipped agree' next above open_
  rw [show (f.finalize cert).base k = f.base k from if_neg (UInt32.not_lt.mpr above)]
  refine (h.bases k (by grind) open_).congr fun r => ?_
  rw [same]
  constructor
  · rintro (old | ⟨rfl, rfl⟩)
    · exact old
    · exact offered
  · exact .inl

/-- Finalizing a slot without notarize certificate: its candidate is offered first. -/
theorem Founded.finalize_fresh (absent : f.certs cert.vote.slot .notarize = none)
    (next : f.Next cert.vote.slot n) :
    ((f.offer n (parent cert.vote.id)).finalize cert).Founded b := by
  have rooted := h.toRooted.finalize small
  apply Founded.rebase rooted
  intro k above open_
  change cert.vote.slot + 1 ≤ k at above
  rw [skipped_finalize above] at open_
  have same := finalize_offers h.toRooted live small unskipped
    (fun c hc => by rw [absent] at hc; cases hc) next above open_
  have old := h.bases k (by have := h.lt_succ small; grind) open_
  rw [if_neg (UInt32.not_lt.mpr above)]
  change Highest _ (Function.update f.base n _ k)
  by_cases here : k = n
  · subst here
    rw [Function.update_self]
    have added := old.add (q := parent cert.vote.id) fun r hr rank =>
      rooted.known_unique ((same r).mpr (.inl hr)).known (.inl rfl) rank
    exact added.congr fun r => by rw [same]; simp
  · rw [Function.update_of_ne here]
    exact old.congr fun r => by rw [same]; simp [here]

end

theorem Ended.finalize (h : f.Ended) (rooted : f.Rooted b) (small : cert.vote.slot < b)
    (unskipped : ¬ f.Skipped cert.vote.slot) (certs : g.certs = (f.finalize cert).certs)
    (runs : g.runs = eraseUpTo f.runs cert.vote.slot) : g.Ended := by
  have skipped (s : UInt32) : g.Skipped s ↔ (f.finalize cert).Skipped s := by
    unfold Skipped
    rw [certs]
  constructor
  · rw [runs]
    exact h.ascending.eraseUpTo _
  · intro x
    rw [runs, mem_eraseUpTo, h.ends]
    simp only [skipped]
    constructor
    · rintro ⟨⟨j, rfl, hj, stop⟩, lt⟩
      have above : cert.vote.slot + 1 ≤ j := by
        grind
      exact ⟨j, rfl, (skipped_finalize above).mpr hj,
        fun next => stop ((skipped_finalize (by grind)).mp next)⟩
    · rintro ⟨j, rfl, hj, stop⟩
      have above : cert.vote.slot + 1 ≤ j := by
        by_contra low
        exact hj (finalize_certs_below (UInt32.not_le.mp low) _)
      rw [skipped_finalize above] at hj
      have := rooted.lt_succ (rooted.live j .skip hj).2
      exact ⟨⟨j, rfl, hj, fun next => stop ((skipped_finalize (by grind)).mpr next)⟩, by grind⟩

end

/-! ## The next open slot -/

theorem Rooted.exists_next (h : f.Rooted b) (lt : i < b) : ∃ n, f.Next i n := by
  have walk (d : Nat) : ∀ n : UInt32, i < n → (∀ j, i < j → j < n → f.Skipped j) →
      b.toNat - n.toNat ≤ d → ∃ n, f.Next i n := by
    induction d with
    | zero =>
      intro n above skipped far
      refine ⟨n, above, skipped, fun here => ?_⟩
      have := UInt32.lt_iff_toNat_lt.mp (h.live n .skip here).2
      omega
    | succ d ih =>
      intro n above skipped far
      by_cases here : f.Skipped n
      · have below := (h.live n .skip here).2
        have up := h.toNat_succ below
        have lt_up := h.lt_succ below
        refine ih (n + 1) (UInt32.lt_trans above lt_up) (fun j from_ lower => ?_) (by omega)
        by_cases at_ : j = n
        · rw [at_]
          exact here
        · exact skipped j from_ (by grind)
      · exact ⟨n, above, skipped, here⟩
  refine walk _ (i + 1) (h.lt_succ lt) (fun j from_ lower => ?_) (Nat.le_refl _)
  grind

theorem Ended.lowerBound (h : f.Ended) (rooted : f.Rooted b) {j : UInt32} (skipped : f.Skipped j) :
    ∃ n, lowerBound f.runs j = some n ∧ f.Next j n := by
  obtain ⟨n, next⟩ := rooted.exists_next (rooted.live j .skip skipped).2
  have above := next.above
  have before : f.Skipped (n - 1) := by
    by_cases here : n - 1 = j
    · rwa [here]
    · exact next.skipped _ (by grind) (by grind)
  have mem : n ∈ f.runs := by
    refine (h.ends n).mpr ⟨n - 1, by grind, before, ?_⟩
    rw [show n - 1 + 1 = n by grind]
    exact next.stop
  obtain ⟨m, found⟩ : ∃ m, Gton.Simplex.lowerBound f.runs j = some m := by
    apply Option.isSome_iff_exists.mp
    rw [Gton.Simplex.lowerBound, List.find?_isSome]
    exact ⟨n, mem, by simp; grind⟩
  have le := lowerBound_le h.ascending found mem (by grind)
  have from_ : j ≤ m := by simpa using List.find?_some found
  obtain ⟨i, rfl, -, stop⟩ := (h.ends m).mp (List.mem_of_find?_eq_some found)
  have same : i + 1 = n := by
    by_contra differ
    exact stop (next.skipped _ (by grind) (by grind))
  exact ⟨i + 1, found, same ▸ next⟩

/-- From a skipped slot on, the next open slot is that of the slot before. -/
theorem Next.pred (next : f.Next (i + 1) n) (skipped : f.Skipped (i + 1))
    (up : i < i + 1) : f.Next i n where
  above := UInt32.lt_trans up next.above
  skipped j above below := by
    by_cases here : j = i + 1
    · rwa [here]
    · exact next.skipped j (by grind) below
  stop := next.stop

/-! ## The present slot -/

/-- With no open slot behind it, a slot has a parent. -/
theorem Rooted.exists_offer (h : f.Rooted b) (live : f.horizon ≤ k)
    (settled : ∀ j, f.horizon ≤ j → j < k → f.Settled j) : ∃ q, f.Offers k q := by
  have walk (d : Nat) : ∀ k : UInt32, k.toNat = f.horizon.toNat + d →
      (∀ j, f.horizon ≤ j → j < k → f.Settled j) → ∃ q, f.Offers k q := by
    induction d with
    | zero =>
      intro k hk _
      have here : k = f.horizon := UInt32.toNat_inj.mp hk
      refine ⟨f.last, (offers_iff h).mpr ⟨.inl rfl, ?_, fun j from_ lower => ?_⟩⟩
      · rw [h.closed, here]
        exact UInt32.le_refl _
      · rw [h.closed] at from_
        grind
    | succ d ih =>
      intro k hk settled
      have one : (1 : UInt32) ≤ k := UInt32.le_iff_toNat_le.mpr (by simp; omega)
      have before : (k - 1).toNat = f.horizon.toNat + d := by
        rw [UInt32.toNat_sub_of_le _ _ one]
        simp [hk]
      have back : k - 1 + 1 = k := by grind
      have live : f.horizon ≤ k - 1 := UInt32.le_iff_toNat_le.mpr (by omega)
      by_cases skipped : f.Skipped (k - 1)
      · obtain ⟨q, hq⟩ := ih (k - 1) before fun j from_ lower => settled j from_ (by grind)
        obtain ⟨known, le, tail⟩ := (offers_iff h).mp hq
        refine ⟨q, (offers_iff h).mpr ⟨known, by grind, fun j from_ lower => ?_⟩⟩
        by_cases here : j = k - 1
        · rw [here]
          exact skipped
        · exact tail j from_ (by grind)
      · obtain ⟨cert, hc⟩ := Option.ne_none_iff_exists'.mp
          ((settled (k - 1) live (by grind)).resolve_right skipped)
        have slot : cert.vote.id.slot = k - 1 := (h.keyed _ _ _ hc).1
        refine ⟨parent cert.vote.id, .inr ⟨cert, ?_, rfl⟩, fun _ => ?_, fun j from_ lower => ?_⟩
        · change f.certs cert.vote.id.slot .notarize = some cert
          rw [slot, hc]
        · change cert.vote.id.slot < k
          grind
        · change cert.vote.id.slot + 1 ≤ j at from_
          rw [slot, back] at from_
          exact absurd lower (UInt32.not_lt.mpr from_)
  refine walk (k.toNat - f.horizon.toNat) k ?_ settled
  have := UInt32.le_iff_toNat_le.mp live
  omega

theorem Rooted.offers_zero (h : f.Rooted b) (o : f.Offers 0 q) : q = genesis := by
  have undefined : q.defined = false := by
    cases defined : q.defined with
    | false => rfl
    | true => exact absurd (o.below defined) (UInt32.not_lt.mpr UInt32.zero_le)
  rcases o.known with rfl | ⟨cert, -, hq⟩
  · exact h.origin undefined
  · rw [hq] at undefined
    cases undefined

theorem Present.mono (h : f.Present b) (horizon : g.horizon = f.horizon) (now : g.now = f.now)
    (settled : ∀ j, f.Settled j → g.Settled j) : g.Present b where
  live := by rw [horizon, now]; exact h.live
  below := by rw [now]; exact h.below
  settled j from_ lower := by
    rw [horizon] at from_
    rw [now] at lower
    exact settled j (h.settled j from_ lower)

theorem settled_put (h : f.Settled s) : (f.put cert).Settled s := by
  unfold Settled Skipped put at *
  dsimp only
  rcases h with h | h
  · left
    split <;> simp_all
  · right
    split <;> simp_all

/-- The greatest parent in the order of `ParentID.compare`. -/
structure Best (f : Frontier) (k : UInt32) (q : ParentID) : Prop where
  offered : f.Offers k q
  greatest : ∀ r, f.Offers k r → r.compare q ≠ .gt

theorem Rooted.best (h : f.Rooted b) (highest : Highest (f.Offers k) (some q)) : f.Best k q := by
  refine ⟨highest.mem q rfl, fun r hr => ?_⟩
  rcases Nat.lt_or_eq_of_le (highest.top q rfl r hr) with lt | same
  · rw [ParentID.compare_of_rank_lt lt]
    simp
  · rw [h.known_unique hr.known (highest.mem q rfl).known same, ParentID.compare_self]
    simp

theorem Offers.congr (certs : g.certs = f.certs) (last : g.last = f.last) :
    g.Offers k q ↔ f.Offers k q := by
  have knows : g.Knows q ↔ f.Knows q := by
    unfold Knows
    rw [certs, last]
  have skips (j : UInt32) : g.Skipped j ↔ f.Skipped j := by
    unfold Skipped
    rw [certs]
  constructor
  · intro o
    exact ⟨knows.mp o.known, o.below, fun j from_ below => (skips j).mp (o.skipped j from_ below)⟩
  · intro o
    exact ⟨knows.mpr o.known, o.below, fun j from_ below => (skips j).mpr (o.skipped j from_ below)⟩

theorem Best.congr (certs : g.certs = f.certs) (last : g.last = f.last) (h : f.Best k q) :
    g.Best k q where
  offered := (Offers.congr certs last).mpr h.offered
  greatest r hr := h.greatest r ((Offers.congr certs last).mp hr)

theorem Founded.congr (h : f.Founded b) (horizon : g.horizon = f.horizon)
    (certs : g.certs = f.certs) (base : g.base = f.base) (last : g.last = f.last) :
    g.Founded b where
  bound := h.bound
  keyed := by rw [certs]; exact h.keyed
  live := by rw [certs, horizon]; exact h.live
  closed := by rw [last, horizon]; exact h.closed
  final := by rw [last]; exact h.final
  origin := by rw [last]; exact h.origin
  bases := by
    intro k hk open_
    rw [horizon] at hk
    rw [Skipped, certs] at open_
    rw [base]
    exact (h.bases k hk open_).congr fun r => Offers.congr certs last

theorem Ended.congr (h : f.Ended) (skips : ∀ s, g.Skipped s ↔ f.Skipped s)
    (runs : g.runs = f.runs) : g.Ended where
  ascending := by rw [runs]; exact h.ascending
  ends := by simp only [runs, h.ends, skips, implies_true]

/-- What holds of a healthy pool. -/
structure Good (b : UInt32) (f : Frontier) : Prop where
  founded : f.Founded b
  ended : f.Ended
  present : f.Present b

/-! ## Before the first certificate -/

/-- Genesis is the base of slot 0. -/
def initial : Frontier where
  horizon := 0
  certs := fun _ _ => none
  base := Function.update (fun _ => none) 0 (some genesis)
  last := genesis
  runs := []
  now := 0

theorem initial_offers : initial.Offers k q ↔ q = genesis ∧ k = 0 := by
  constructor
  · intro o
    rcases o.known with last | ⟨cert, hc, -⟩
    · refine ⟨last, ?_⟩
      by_contra later
      have next : q.nextSlot = 0 := by rw [last]; rfl
      exact o.skipped 0 (by rw [next]; exact UInt32.le_refl _) (by grind) rfl
    · cases hc
  · rintro ⟨rfl, rfl⟩
    refine ⟨.inl rfl, fun defined => (by cases defined), fun j _ lower => ?_⟩
    exact absurd lower (UInt32.not_lt.mpr UInt32.zero_le)

theorem initial_founded (bound : b ≤ lastSlot) : initial.Founded b where
  bound := bound
  keyed s k c hc := by cases hc
  live s k hc := absurd rfl hc
  closed := rfl
  final defined := by cases defined
  origin _ := rfl
  bases k _ _ := by
    by_cases zero : k = 0
    · subst zero
      have nothing : Highest (fun _ => False) none :=
        ⟨fun _ h => (by cases h), fun _ h => (by cases h), fun _ _ h => h⟩
      have alone := nothing.add (q := genesis) fun _ h => h.elim
      exact alone.congr fun r => by simp [initial_offers]
    · have empty : initial.base k = none := by simp [initial, zero]
      rw [empty]
      refine ⟨fun q hq => (by cases hq), fun q hq => (by cases hq), fun _ r hr => ?_⟩
      exact zero (initial_offers.mp hr).2

theorem initial_good (bound : b ≤ lastSlot) : initial.Good b where
  founded := initial_founded bound
  ended := by
    refine ⟨.nil, fun x => ⟨fun mem => (by cases mem), ?_⟩⟩
    rintro ⟨j, -, skipped, -⟩
    exact absurd rfl skipped
  present := by
    refine ⟨UInt32.le_refl _, UInt32.zero_le, fun j _ lower => ?_⟩
    exact absurd lower (UInt32.not_lt.mpr UInt32.zero_le)

end Frontier

end Gton.Simplex
