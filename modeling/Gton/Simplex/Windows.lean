import Gton.Simplex.Bases
import Gton.Simplex.Node

/-!
# Announced windows of a session

From `Start` on, every open slot has the best parent as its base, the present slot never runs
into the errors `advancePresent` guards against, and windows are announced in ascending order,
each on the best parent of its first slot. Slots where the `uint32` number of the next window
would wrap are left out.
-/

namespace Gton.Simplex

/-- The first slot a certificate could push the window number or the slot past 2^32 from. -/
def Config.topSlot (cfg : Config) : UInt32 := if cfg.spw = 1 then lastSlot - 1 else lastSlot

theorem Config.topSlot_le (cfg : Config) : cfg.topSlot ≤ lastSlot := by
  unfold topSlot lastSlot
  split <;> decide

theorem Config.window_lt_succ (cfg : Config) {s : UInt32} (le : s ≤ cfg.topSlot) :
    s / cfg.spw < s / cfg.spw + 1 := by
  have small : (s / cfg.spw).toNat < 4294967295 := by
    rw [UInt32.toNat_div]
    have top := UInt32.le_iff_toNat_le.mp le
    unfold topSlot at top
    split at top
    next one =>
      rw [one]
      have : (lastSlot - 1).toNat = 4294967294 := rfl
      simp
      omega
    next other =>
      have size := s.toNat_lt
      by_cases zero : cfg.spw.toNat = 0
      · rw [zero, Nat.div_zero]
        omega
      · have two : 2 ≤ cfg.spw.toNat := by
          have ne : cfg.spw.toNat ≠ 1 := fun h => other (UInt32.toNat_inj.mp h)
          omega
        exact Nat.lt_of_le_of_lt (Nat.div_le_div_left two (by omega)) (by omega)
  apply UInt32.lt_iff_toNat_lt.mpr
  rw [UInt32.toNat_add, UInt32.toNat_one]
  omega

theorem start_lt_of_window_lt {n a b : UInt32} (h : a / n < b / n) : a - a % n < b - b % n := by
  have lt := UInt32.lt_iff_toNat_lt.mp h
  rw [UInt32.toNat_div, UInt32.toNat_div] at lt
  have start (s : UInt32) : (s - s % n).toNat = n.toNat * (s.toNat / n.toNat) := by
    have le : s % n ≤ s :=
      UInt32.le_iff_toNat_le.mpr (by rw [UInt32.toNat_mod]; exact Nat.mod_le _ _)
    rw [UInt32.toNat_sub_of_le _ _ le, UInt32.toNat_mod]
    have := Nat.div_add_mod s.toNat n.toNat
    omega
  apply UInt32.lt_iff_toNat_lt.mpr
  rw [start, start]
  have pos : 0 < n.toNat := by
    rcases Nat.eq_zero_or_pos n.toNat with zero | pos
    · rw [zero, Nat.div_zero, Nat.div_zero] at lt
      omega
    · exact pos
  exact Nat.mul_lt_mul_of_pos_left lt pos

variable {bs : BootstrapState} {w : Window} {before : List Window} {cfg : Config} {e : Engine}

namespace Engine

/-- The state of a session, as far as bases and windows go. -/
structure Sane (cfg : Config) (e : Engine) : Prop where
  good : e.failed = false → e.pool.frontier.Good cfg.topSlot
  calm : ∀ err, e.fatalErr = some err → err.isPresent = false
  ordered : e.windows.Pairwise fun v w => v.observedSlot / cfg.spw < w.observedSlot / cfg.spw
  announced : e.failed = false →
    ∀ w ∈ e.windows, w.observedSlot / cfg.spw < e.pool.firstNonAnnouncedWindow
  aligned : ∀ w ∈ e.windows, w.startSlot = w.observedSlot - w.observedSlot % cfg.spw

variable {cfg : Config} {e e' : Engine}

theorem Served.sane (h : Served cfg cfg.topSlot e e') (sane : Sane cfg e) : Sane cfg e' := by
  have good (ok : e'.failed = false) := (h.good ok).2
  have calm (err : FatalError) (herr : e'.fatalErr = some err) : err.isPresent = false :=
    (h.errors err herr).elim (sane.calm err) id
  cases h.heralds with
  | silent windows cursor =>
    refine ⟨good, calm, sane.ordered.sublist windows, fun ok w hw => ?_, fun w hw => ?_⟩
    · rw [cursor]
      exact sane.announced (h.good ok).1 w (windows.subset hw)
    · exact sane.aligned w (windows.subset hw)
  | window w windows healthy fresh cursor observed start best =>
    have later (v : Window) (hv : v ∈ e.windows) :
        v.observedSlot / cfg.spw < w.observedSlot / cfg.spw := by
      rw [observed]
      exact UInt32.lt_of_lt_of_le (sane.announced healthy v hv) fresh
    have ordered : (e.windows ++ [w]).Pairwise
        fun v w => v.observedSlot / cfg.spw < w.observedSlot / cfg.spw := by
      refine List.pairwise_append.mpr ⟨sane.ordered, List.pairwise_singleton _ _, ?_⟩
      intro v hv x hx
      rw [List.mem_singleton.mp hx]
      exact later v hv
    refine ⟨good, calm, ordered.sublist windows, fun ok v hv => ?_, fun v hv => ?_⟩
    · have last : w.observedSlot / cfg.spw < e'.pool.firstNonAnnouncedWindow := by
        rw [cursor, observed]
        exact cfg.window_lt_succ (good ok).present.below
      rcases List.mem_append.mp (windows.subset hv) with old | new
      · exact UInt32.lt_trans (later v old) last
      · rw [List.mem_singleton.mp new]
        exact last
    · rcases List.mem_append.mp (windows.subset hv) with old | new
      · exact sane.aligned v old
      · rw [List.mem_singleton.mp new, start, observed]

/-- A window that was not announced before builds on the best parent of the present slot. -/
theorem Served.fresh (h : Served cfg cfg.topSlot e e') (hw : w ∈ e'.windows) (new : w ∉ e.windows) :
    w.observedSlot = e'.pool.now ∧ e'.pool.frontier.Best w.observedSlot w.base := by
  cases h.heralds with
  | silent windows => exact absurd (windows.subset hw) new
  | window v windows _ _ _ observed _ best =>
    rcases List.mem_append.mp (windows.subset hw) with old | here
    · exact absurd old new
    · rw [List.mem_singleton.mp here]
      exact ⟨observed, observed ▸ best⟩

theorem Replaying.sane (h : Replaying cfg.topSlot e) : Sane cfg e := by
  have none_fatal : e.fatalErr = none := by
    have ok := h.ok
    unfold failed at ok
    simp only [Bool.or_eq_false_iff] at ok
    simpa using ok.1.1
  constructor
  · intro _
    exact h.good
  · intro err herr
    rw [none_fatal] at herr
    cases herr
  all_goals simp [h.quiet]

theorem start_served {params : Params} {clock : Time}
    (below : ∀ cert ∈ bs.certificates, cert.vote.slot < cfg.topSlot)
    (done : (start cfg params clock bs []).2 = none) :
    ∃ e, Replaying cfg.topSlot e ∧ Served cfg cfg.topSlot e (start cfg params clock bs []).1 := by
  have prepared : Replaying cfg.topSlot ((new params clock bs []).prepare cfg bs.ourVotes) :=
    prepare_replaying cfg.topSlot_le params clock bs
  unfold start at done ⊢
  dsimp only at done ⊢
  split at done
  · cases done
  · split at done
    · cases done
    next e replayed =>
      have h : Replaying cfg.topSlot e := by
        have := replayCertificates_replaying bs.certificates prepared below (by rw [replayed])
        rwa [replayed] at this
      exact ⟨e, h, (startSession_served (fun _ => h.good) bs.ourVotes).toServed⟩

end Engine

/-! ## Sessions -/

/-- A session of one engine: a `Start` without an error, then any admitted inputs at any times.
`before` are the windows announced before the last transition. -/
inductive Session (cfg : Config) (bs : BootstrapState) (admits : Input → Prop) :
    (before : List Window) → Engine → Prop where
  | start (params : Params) (clock : Time)
      (done : (Engine.start cfg params clock bs []).2 = none) :
      Session cfg bs admits [] (Engine.start cfg params clock bs []).1
  | step {before : List Window} {e : Engine} (t : Time) {input : Input} :
      Session cfg bs admits before e → admits input →
      Session cfg bs admits e.windows (e.step cfg t input)

section

variable (below : ∀ cert ∈ bs.certificates, cert.vote.slot < cfg.topSlot)
  (h : Session cfg bs (Input.CertsBelow cfg.topSlot) before e)
include below h

theorem Session.sane : e.Sane cfg := by
  induction h with
  | start params clock done =>
    obtain ⟨e, replaying, served⟩ := Engine.start_served below done
    exact served.sane replaying.sane
  | step t _ admitted ih => exact (Engine.step_served ih.good admitted).sane ih

/-- A window is announced on the best parent of the slot it was observed at. -/
theorem Session.fresh (hw : w ∈ e.windows) (new : w ∉ before) :
    w.observedSlot = e.pool.now ∧ e.pool.frontier.Best w.observedSlot w.base := by
  cases h with
  | start params clock done =>
    obtain ⟨e, replaying, served⟩ := Engine.start_served below done
    exact served.fresh hw (by rw [replaying.quiet]; exact new)
  | step t earlier admitted =>
    exact (Engine.step_served (earlier.sane below).good admitted).fresh hw new

end

/-- In every state of a session each open slot has the best parent as its base, if there is one;
the present slot never lacks a base or falls behind the horizon; a new window builds on the best
parent of the slot it was observed at; and windows start at ascending slots. -/
theorem available_bases_are_best {cfg : Config} {bs : BootstrapState} {before : List Window}
    {e : Engine} (below : ∀ cert ∈ bs.certificates, cert.vote.slot < cfg.topSlot)
    (h : Session cfg bs (Input.CertsBelow cfg.topSlot) before e) :
    (e.failed = false → ∀ k, e.pool.slots.firstNonFinalized ≤ k → e.pool.certAt k .skip = none →
      (∀ q, e.pool.base k = some q → e.pool.frontier.Best k q) ∧
      (e.pool.base k = none ↔ ∀ q, ¬ e.pool.frontier.Offers k q)) ∧
    (∀ s, e.fatalErr ≠ some (.noAvailableBase s) ∧ e.fatalErr ≠ some (.presentBelowHorizon s)) ∧
    (∀ w ∈ e.windows, w ∉ before →
      w.observedSlot = e.pool.now ∧ e.pool.frontier.Best w.observedSlot w.base) ∧
    e.windows.Pairwise fun v w => v.startSlot < w.startSlot := by
  have sane := h.sane below
  refine ⟨fun ok k live open_ => ?_, fun s => ⟨fun fatal => ?_, fun fatal => ?_⟩,
    fun w hw new => h.fresh below hw new, ?_⟩
  · have founded := (sane.good ok).founded
    have highest := founded.bases k live fun skipped => skipped open_
    refine ⟨fun q hq => founded.best (hq ▸ highest), fun absent q => highest.empty absent q,
      fun nothing => ?_⟩
    by_contra some_
    obtain ⟨q, hq⟩ := Option.ne_none_iff_exists'.mp some_
    exact nothing q (highest.mem q hq)
  · cases sane.calm _ fatal
  · cases sane.calm _ fatal
  · refine sane.ordered.imp_of_mem fun hv hw lt => ?_
    rw [sane.aligned _ hv, sane.aligned _ hw]
    exact start_lt_of_window_lt lt

/-- A journal with a finalization, a later notarization and a skip after that. -/
def soloJournal : BootstrapState :=
  soloCertified [finalizeVote ⟨0, 0⟩, notarizeVote ⟨2, 0⟩, skipVote 3]

/-- After that journal slot 4 builds on the notarized candidate of slot 2. -/
theorem available_bases_are_best_solo :
    (Engine.start soloConfig soloParams 0 soloJournal []).1.pool.base 4 = some (parent ⟨2, 0⟩) ∧
      (Engine.start soloConfig soloParams 0 soloJournal []).1.pool.frontier.Best 4
        (parent ⟨2, 0⟩) := by
  have here : (Engine.start soloConfig soloParams 0 soloJournal []).1.pool.base 4 =
      some (parent ⟨2, 0⟩) := by decide +kernel
  have session : Session soloConfig soloJournal (Input.CertsBelow soloConfig.topSlot) []
      (Engine.start soloConfig soloParams 0 soloJournal []).1 :=
    .start soloParams 0 (by decide +kernel)
  have best := available_bases_are_best (by decide +kernel) session
  exact ⟨here, (best.1 (by decide +kernel) 4 (by decide +kernel) (by decide +kernel)).1 _ here⟩

/-- A journal with a notarization of the last slot. -/
def lastNotarized : BootstrapState := soloCertified [notarizeVote ⟨lastSlot, 0⟩]

/-- The slot after the last one wraps to 0, where its candidate becomes the base. -/
theorem last_slot_notarized_offered_at_zero :
    Session soloConfig lastNotarized (fun _ => True) []
        (Engine.start soloConfig soloParams 0 lastNotarized []).1 ∧
      (Engine.start soloConfig soloParams 0 lastNotarized []).1.failed = false ∧
      (Engine.start soloConfig soloParams 0 lastNotarized []).1.pool.certAt 0 .skip = none ∧
      (Engine.start soloConfig soloParams 0 lastNotarized []).1.pool.base 0 =
        some (parent ⟨lastSlot, 0⟩) ∧
      ¬ (Engine.start soloConfig soloParams 0 lastNotarized []).1.pool.frontier.Best 0
        (parent ⟨lastSlot, 0⟩) := by
  refine ⟨.start soloParams 0 (by decide +kernel), by decide +kernel, by decide +kernel,
    by decide +kernel, fun best => ?_⟩
  exact absurd (best.offered.below rfl) (by decide)

end Gton.Simplex
