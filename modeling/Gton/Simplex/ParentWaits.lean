import Gton.Simplex.Gating

/-!
# Waiting for a parent

An accepted candidate waits until certificates settle its parent chain. Waits are looked at again
whenever a certificate is stored, so between inputs none of them is decided, and every accepted
candidate is either still waiting or was moved on once.
-/

namespace Gton.Simplex

open List Function

/-! ## What a wait depends on -/

/-- Two pools with the same certificates, finalization and skip runs. -/
structure Pool.SameCerts (p q : Pool) : Prop where
  horizon : q.slots.firstNonFinalized = p.slots.firstNonFinalized
  certs : ∀ s k, q.certAt s k = p.certAt s k
  lastFinalized : q.lastFinalized = p.lastFinalized
  lastFinalCert : q.lastFinalCert = p.lastFinalCert
  skipRuns : q.skipRuns = p.skipRuns

namespace Pool

variable {p q : Pool}

theorem SameCerts.refl (p : Pool) : SameCerts p p := ⟨rfl, fun _ _ => rfl, rfl, rfl, rfl⟩

theorem bind_skipCert (p : Pool) (s : UInt32) :
    (p.slots.get? s).bind PoolSlot.skipCert = p.certAt s .skip := by
  unfold certAt
  cases p.slots.get? s <;> rfl

theorem SameCerts.evaluateParentWait (h : SameCerts p q) (c : Candidate) :
    q.evaluateParentWait c = p.evaluateParentWait c := by
  have notar (s : UInt32) : ((q.slots.get? s).getD default).notarCert =
      ((p.slots.get? s).getD default).notarCert := h.certs s .notarize
  have final (s : UInt32) : ((q.slots.get? s).getD default).finalCert =
      ((p.slots.get? s).getD default).finalCert := h.certs s .finalize
  have block (s : UInt32) : ((q.slots.get? s).getD default).notarizedBlock =
      ((p.slots.get? s).getD default).notarizedBlock := by
    unfold PoolSlot.notarizedBlock
    rw [notar, final]
  have skips (next slot : UInt32) : q.evaluateSkips next slot = p.evaluateSkips next slot := by
    unfold evaluateSkips
    rw [bind_skipCert, bind_skipCert, h.certs, h.skipRuns]
  unfold Pool.evaluateParentWait
  simp only [h.horizon, h.lastFinalized, h.lastFinalCert, notar, block, skips]

theorem evaluateParentWait_ne_internalError (p : Pool) (c : Candidate) :
    p.evaluateParentWait c ≠ .done .internalError := by
  have skips (next slot : UInt32) : p.evaluateSkips next slot ≠ .done .internalError := by
    unfold evaluateSkips
    repeat' split
    all_goals simp
  unfold Pool.evaluateParentWait
  dsimp only
  repeat' split
  all_goals first
    | exact skips _ _
    | simp

end Pool

variable {s : UInt32} {e : Engine} {c : Candidate} {i : Nat}
  {l : List (Candidate × ParentWaitOutcome)}

theorem Engine.SameCerts.setSlot {slot slot' : PoolSlot}
    (here : e.pool.slots.get? s = some slot) (certs : slot'.certByKind = slot.certByKind) :
    e.pool.SameCerts (e.setSlot s slot').pool := by
  refine ⟨rfl, fun t k => ?_, rfl, rfl, rfl⟩
  unfold Pool.certAt Engine.setSlot
  by_cases eq : t = s
  · subst eq
    rw [SlotMap.get?_set_self (SlotMap.le_of_get? here), here, Option.getD_some, Option.getD_some,
      certs]
  · rw [SlotMap.get?_set_ne eq]

/-! ## Removing a wait -/

theorem swapRemove_perm {l : List Candidate} (h : l[i]? = some c) :
    (c :: swapRemove l i).Perm l := by
  obtain ⟨inRange, rfl⟩ := List.getElem?_eq_some_iff.mp h
  obtain ⟨front, last, rfl⟩ : ∃ front last, l = front ++ [last] :=
    ⟨l.dropLast, l.getLast (ne_nil_of_length_pos (by omega)),
      (dropLast_append_getLast _).symm⟩
  unfold swapRemove
  rw [getLast?_concat]
  dsimp only
  rw [length_append, length_singleton] at inRange
  by_cases inner : i < front.length
  · rw [set_append_left _ _ inner, dropLast_concat, getElem_append_left inner]
    have swapped : (front.set i last).Perm (last :: front.eraseIdx i) :=
      set_perm_cons_eraseIdx inner last
    have restored : (front[i] :: front.eraseIdx i).Perm front := getElem_cons_eraseIdx_perm inner
    calc front[i] :: front.set i last
      _ |>.Perm (front[i] :: last :: front.eraseIdx i) := swapped.cons _
      _ |>.Perm (last :: front[i] :: front.eraseIdx i) := .swap _ _ _
      _ |>.Perm (last :: front) := restored.cons _
      _ |>.Perm (front ++ [last]) := (perm_append_singleton _ _).symm
  · have outer : i = front.length := by omega
    subst outer
    have moved := (perm_append_singleton last front).symm
    simpa using moved

theorem swapRemove_getElem? {l : List Candidate} {j : Nat} (inRange : i < l.length)
    (before : j < i) : (swapRemove l i)[j]? = l[j]? := by
  unfold swapRemove
  cases l.getLast? with
  | none => rfl
  | some last =>
    rw [getElem?_dropLast, length_set, if_pos (by omega),
      getElem?_set_ne (by omega)]

namespace Engine

variable {cfg : Config} {g : Grant} {e e' : Engine} {out : ParentWaitOutcome} {d : Deferred}
  {ds : List Deferred}

/-! ## Between inputs nothing is decided -/

/-- Every waiting candidate has to wait. -/
def Patient (e : Engine) : Prop :=
  e.failed = false → ∀ c ∈ e.parentWaits, e.pool.evaluateParentWait c = .waiting

theorem parentWaits_parentWaitDecided (e : Engine) (c : Candidate) (r : ParentWait) :
    (e.parentWaitDecided c r).parentWaits = e.parentWaits := by
  unfold parentWaitDecided
  split
  · rfl
  · exact (Inner.fatal e .noRunEnd).parentWaits
  · rfl
  · rfl

theorem forall_mem_of_getElem? {l : List Candidate} {P : Candidate → Prop}
    (looked : ∀ j < i, ∀ c, l[j]? = some c → P c) (short : l.length ≤ i) : ∀ c ∈ l, P c := by
  intro c mem
  obtain ⟨j, inRange, rfl⟩ := mem_iff_getElem.mp mem
  exact looked j (by omega) _ (getElem?_eq_getElem inRange)

/-- The entries before `i` were looked at, and each round looks at another or removes it. -/
theorem resolveLoop_waiting {p : Pool} (n i : Nat) (e : Engine) (pool : e.pool = p)
    (looked : ∀ j < i, ∀ c, e.parentWaits[j]? = some c → p.evaluateParentWait c = .waiting)
    (enough : e.parentWaits.length ≤ i + n) :
    ∀ c ∈ (resolveLoop n i e).parentWaits, p.evaluateParentWait c = .waiting := by
  induction n generalizing i e with
  | zero => exact forall_mem_of_getElem? looked enough
  | succ n ih =>
    unfold resolveLoop
    split
    next absent =>
      exact forall_mem_of_getElem? looked (List.getElem?_eq_none_iff.mp absent)
    next c here =>
      have inRange := (List.getElem?_eq_some_iff.mp here).1
      split
      next waits =>
        refine ih (i + 1) e pool (fun j hj d hd => ?_) (by omega)
        by_cases last : j = i
        · subst last
          rw [here] at hd
          cases hd
          exact pool ▸ waits
        · exact looked j (by omega) d hd
      · have length : (swapRemove e.parentWaits i).length + 1 = e.parentWaits.length :=
          (swapRemove_perm here).length_eq
        refine ih i _ ?_ (fun j hj d hd => ?_) ?_
        · rw [(Settles.parentWaitDecided rfl).pool]
          exact pool
        · rw [parentWaits_parentWaitDecided] at hd
          exact looked j hj d (swapRemove_getElem? inRange hj ▸ hd)
        · rw [parentWaits_parentWaitDecided]
          change (swapRemove e.parentWaits i).length ≤ i + n
          omega

theorem resolveParentWaits_patient (e : Engine) : e.resolveParentWaits.Patient := by
  intro _ c mem
  rw [resolveParentWaits, (Settles.resolveLoop _ _ _).pool]
  exact resolveLoop_waiting _ 0 e rfl (fun j hj => by omega) (by omega) c mem

namespace Patient

section

variable (h : Patient e)
include h

theorem frame (alive : e'.failed = false → e.failed = false)
    (waits : e'.parentWaits = e.parentWaits) (certs : e.pool.SameCerts e'.pool) : Patient e' := by
  intro ok c mem
  rw [certs.evaluateParentWait]
  exact h (alive ok) c (waits ▸ mem)

omit h in
theorem fatal (e : Engine) (err : FatalError) : Patient (e.fatal err) := by
  intro ok
  rw [failed_fatal] at ok
  cases ok

theorem handleCertificate (cert : Certificate) : Patient (e.handleCertificate cert) := by
  apply handleCertificate_keep h
  intro slot here _
  obtain ⟨-, -, certs, -⟩ := slot.setSaving_keeps cert.vote.kind true
  exact h.frame (fun ok => ok) rfl (SameCerts.setSlot here certs)

theorem applyVote (i : Nat) (v : Vote) (sig : Signature) (tolerate : Bool) :
    Patient (e.applyVote cfg i v sig tolerate).1 := by
  apply applyVote_keep h
  · exact fun _ => fatal e _
  · exact fun _ _ _ _ => h.frame (fun ok => ok) rfl (.refl _)
  · exact h.frame (fun ok => ok) rfl (.refl _)
  · intro e₁ slot vv same here _
    have kept := PoolSlot.addWeight_keeps
      { slot with votes := Function.update slot.votes i vv } v (cfg.weight i)
    exact same.frame (fun ok => ok) rfl (SameCerts.setSlot here kept.2.1)
  · exact fun _ _ same _ _ => same.handleCertificate _

theorem acceptCandidate (c : Candidate) : Patient (e.acceptCandidate cfg c) := by
  unfold Engine.acceptCandidate
  dsimp only
  split
  · exact h
  · split
    · exact h
    · split
      · exact h
      · generalize hq : ((e.setVoterSlot c.id.slot _).emit (.submitted c)).enqueue
          (.storeCandidate c) = e₁
        have noted : Patient e₁ := by
          rw [← hq]
          exact h.frame (fun ok => ok) rfl (.refl _)
        unfold registerParentWait
        split
        next waits =>
          intro ok d mem
          rcases mem_append.mp mem with old | new
          · exact noted ok d old
          · rw [mem_singleton.mp new]
            exact waits
        · unfold parentWaitDecided
          split
          · exact noted
          · exact (fatal e₁ .noRunEnd).frame (fun ok => ok) rfl (.refl _)
          · exact noted.frame (fun ok => ok) rfl (.refl _)
          · exact noted.frame (fun ok => ok) rfl (.refl _)

theorem onParentWaitDone (c : Candidate) (out : ParentWaitOutcome) :
    Patient (e.onParentWaitDone cfg c out) := by
  unfold Engine.onParentWaitDone
  repeat' split
  all_goals exact h.frame (fun ok => ok) rfl (.refl _)

omit h in
theorem storeSavedCertificate (e : Engine) (slot : PoolSlot) (cert : Certificate) :
    Patient (e.storeSavedCertificate cfg slot cert) := by
  have resolved (e : Engine) : Patient (if e.failed then e else e.resolveParentWaits) := by
    split
    next failed =>
      intro ok
      rw [ok] at failed
      cases failed
    · exact resolveParentWaits_patient e
  unfold Engine.storeSavedCertificate
  split
  · exact fatal e _
  · exact resolved _

theorem finishCertificateSave (cert : Certificate) (res : SaveResult) :
    Patient (e.finishCertificateSave cfg cert res) := by
  unfold Engine.finishCertificateSave
  split
  · exact fatal e _
  · split
    · exact h
    · exact storeSavedCertificate _ _ _

theorem advancePresent : Patient (e.advancePresent cfg) := by
  have inner : Inner e (e.advancePresent cfg) := .advancePresent e
  refine h.frame (fun ok => (inner.alive ok).1) inner.parentWaits ?_
  rw [pool_advancePresent]
  exact ⟨rfl, fun _ _ => rfl, rfl, rfl, rfl⟩

theorem tick (t : Tick cfg g e e') : Patient e' := by
  cases t with
  | plain p =>
    exact h.frame (fun ok => p.failed ▸ ok) p.parentWaits (by rw [p.pool]; exact .refl _)
  | fatal => exact fatal e _
  | stop => exact fun _ c mem => by cases mem
  | receive | cast => exact h.frame (fun ok => ok) rfl (.refl _)
  | apply => exact h.applyVote _ _ _ _
  | save => exact h.handleCertificate _
  | accept => exact h.acceptCandidate _
  | @moveOn c out ds =>
    have popped : Patient { e with pending := ds } := h.frame (fun ok => ok) rfl (.refl _)
    exact popped.onParentWaitDone _ _
  | finish => exact h.finishCertificateSave _ _
  | store => exact storeSavedCertificate e _ _
  | advance => exact h.advancePresent

end

end Patient

/-! ## Nobody is lost or moved on twice -/

/-- The accepted candidates that were not moved on. -/
def owed (e : Engine) : List Candidate := e.parentWaits ++ e.moving.map Prod.fst

/-- No candidate is queued with an internal error. -/
def Decided (e : Engine) : Prop := ∀ p ∈ e.moving, p.2 ≠ .internalError

/-- The candidates `new` are accepted and the candidates `gone` moved on, unless the engine
fails. -/
def Balanced (new gone : List Candidate) (e e' : Engine) : Prop :=
  e'.failed = false → e.failed = false ∧ e'.submissions = new ++ e.submissions ∧
    (new ++ e.owed).Perm (gone ++ e'.owed) ∧ (e.Decided → e'.Decided)

theorem Decided.append
    (moving : e'.moving = e.moving ++ [(c, out)]) (sure : out ≠ .internalError) (h : e.Decided) :
    e'.Decided := by
  intro p hp
  rw [moving] at hp
  rcases mem_append.mp hp with old | new
  · exact h p old
  · rw [mem_singleton.mp new]
    exact sure

namespace Balanced

variable {e'' : Engine} {new new' gone gone' : List Candidate}

theorem frame (alive : e'.failed = false → e.failed = false)
    (submissions : e'.submissions = e.submissions) (waits : e'.parentWaits = e.parentWaits)
    (moving : e'.moving = e.moving) : Balanced [] [] e e' := by
  intro ok
  refine ⟨alive ok, submissions, ?_, ?_⟩
  · unfold owed
    rw [waits, moving]
  · unfold Decided
    rw [moving]
    exact fun h => h

theorem refl (e : Engine) : Balanced [] [] e e := frame (fun ok => ok) rfl rfl rfl

theorem trans (h : Balanced new gone e e') (h' : Balanced new' gone' e' e'') :
    Balanced (new' ++ new) (gone ++ gone') e e'' := by
  intro ok
  obtain ⟨ok', submissions', perm', decided'⟩ := h' ok
  obtain ⟨ok, submissions, perm, decided⟩ := h ok'
  refine ⟨ok, by rw [submissions', submissions, append_assoc], ?_, fun h => decided' (decided h)⟩
  calc new' ++ new ++ e.owed
    _ |>.Perm (new' ++ (gone ++ e'.owed)) := by
      rw [append_assoc]
      exact perm.append_left _
    _ |>.Perm (gone ++ (new' ++ e'.owed)) := perm_append_comm_assoc _ _ _
    _ |>.Perm (gone ++ gone' ++ e''.owed) := by
      rw [append_assoc]
      exact perm'.append_left _

theorem failed (h : e'.failed = true) : Balanced new gone e e' := by
  intro ok
  rw [h] at ok
  cases ok

theorem inner (h : Inner e e') : Balanced [] [] e e' := by
  intro ok
  obtain ⟨alive, moving⟩ := h.alive ok
  exact frame (fun _ => alive) h.submissions h.parentWaits moving ok

theorem enqueue (e : Engine) (moved : d.moved? = none) : Balanced [] [] e (e.enqueue d) :=
  frame (fun ok => ok) rfl rfl (by simp [moving, Engine.enqueue, moved])

theorem handleCertificate (e : Engine) (cert : Certificate) :
    Balanced [] [] e (e.handleCertificate cert) :=
  handleCertificate_keep (refl e) fun _ _ _ => frame (fun ok => ok) rfl rfl rfl

theorem applyVote (e : Engine) (i : Nat) (v : Vote) (sig : Signature) (tolerate : Bool) :
    Balanced [] [] e (e.applyVote cfg i v sig tolerate).1 := by
  apply applyVote_keep (P := Balanced [] [] e)
  · exact refl e
  · exact fun _ => inner (.fatal e _)
  · exact fun _ _ _ _ => enqueue e rfl
  · exact frame (fun ok => ok) rfl rfl rfl
  · exact fun _ _ _ same _ _ => same.trans (frame (fun ok => ok) rfl rfl rfl)
  · exact fun _ _ same _ _ => same.trans (handleCertificate _ _)

/-- A decided candidate joins the queue, unless a run end is missing. -/
theorem parentWaitDecided (e : Engine) (c : Candidate) {r : ParentWait} (decided : r ≠ .waiting)
    (sure : r ≠ .done .internalError) :
    (e.parentWaitDecided c r).failed = false → e.failed = false ∧
      (e.parentWaitDecided c r).submissions = e.submissions ∧
      ∃ out, out ≠ .internalError ∧ (e.parentWaitDecided c r).moving = e.moving ++ [(c, out)] := by
  unfold Engine.parentWaitDecided
  split
  · exact absurd rfl decided
  · intro ok
    change (e.fatal .noRunEnd).failed = false at ok
    rw [failed_fatal] at ok
    cases ok
  · refine fun ok => ⟨ok, rfl, .ok, by simp, ?_⟩
    simp [moving, Engine.enqueue, Engine.emit, Deferred.moved?]
  next out _ =>
    refine fun ok => ⟨ok, rfl, out, fun eq => sure (congrArg _ eq), ?_⟩
    simp [moving, Engine.enqueue, Deferred.moved?]

theorem resolveLoop (n i : Nat) (e : Engine) : Balanced [] [] e (Engine.resolveLoop n i e) := by
  induction n generalizing i e with
  | zero => exact refl e
  | succ n ih =>
    unfold Engine.resolveLoop
    split
    · exact refl e
    next c here =>
      split
      · exact ih _ _
      next decided =>
        have one : Balanced [] [] e ({ e with parentWaits := swapRemove e.parentWaits i
            }.parentWaitDecided c (e.pool.evaluateParentWait c)) := by
          intro ok
          obtain ⟨alive, submissions, out, sure, moving⟩ :=
            parentWaitDecided _ c decided (Pool.evaluateParentWait_ne_internalError _ _) ok
          refine ⟨alive, submissions, ?_, Decided.append moving sure⟩
          unfold owed
          rw [parentWaits_parentWaitDecided, moving, map_append]
          calc e.parentWaits ++ e.moving.map Prod.fst
            _ |>.Perm (c :: swapRemove e.parentWaits i ++ e.moving.map Prod.fst) :=
              (swapRemove_perm here).symm.append_right _
            _ |>.Perm (swapRemove e.parentWaits i ++ e.moving.map Prod.fst ++ [c]) :=
              (perm_append_singleton _ _).symm
            _ |>.Perm (swapRemove e.parentWaits i ++ (e.moving.map Prod.fst ++ [c])) := by
              rw [append_assoc]
        exact one.trans (ih _ _)

theorem storeSavedCertificate (e : Engine) (slot : PoolSlot) (cert : Certificate) :
    Balanced [] [] e (e.storeSavedCertificate cfg slot cert) := by
  obtain ⟨e', same, eq | eq⟩ := storeSavedCertificate_inner cfg e slot cert
  · exact eq ▸ inner same
  · exact eq ▸ (inner same).trans (resolveLoop _ _ _)

theorem finishCertificateSave (e : Engine) (cert : Certificate) (res : SaveResult) :
    Balanced [] [] e (e.finishCertificateSave cfg cert res) := by
  apply finishCertificateSave_keep (P := Balanced [] [] e) (R := fun e₁ _ => Balanced [] [] e e₁)
  · exact refl e
  · exact inner (.fatal e _)
  · exact fun _ _ => refl e
  · exact fun _ _ _ _ same _ _ => same.trans (enqueue _ rfl)
  · exact fun _ _ _ same _ => same
  · intro e₁ slot same _ _
    have set : Balanced [] [] e₁ (e₁.setSlot cert.vote.slot slot) :=
      frame (fun ok => ok) rfl rfl rfl
    exact same.trans (set.trans (storeSavedCertificate _ _ _))

theorem acceptCandidate (e : Engine) (c : Candidate) :
    ∃ new, Balanced new [] e (e.acceptCandidate cfg c) := by
  unfold Engine.acceptCandidate
  dsimp only
  split
  · exact ⟨[], refl e⟩
  · split
    · exact ⟨[], refl e⟩
    · split
      · exact ⟨[], refl e⟩
      · refine ⟨[c], ?_⟩
        generalize hq : ((e.setVoterSlot c.id.slot _).emit (.submitted c)).enqueue
          (.storeCandidate c) = e₁
        have noted : e₁.failed = e.failed ∧ e₁.submissions = c :: e.submissions ∧
            e₁.parentWaits = e.parentWaits ∧ e₁.moving = e.moving := by
          rw [← hq]
          refine ⟨rfl, rfl, rfl, ?_⟩
          simp [moving, Engine.enqueue, Engine.emit, setVoterSlot, Deferred.moved?]
        obtain ⟨failed, submissions, waits, moving⟩ := noted
        unfold registerParentWait
        split
        · intro ok
          refine ⟨failed ▸ ok, submissions, ?_, ?_⟩
          · change ([c] ++ _).Perm ([] ++ (e₁.parentWaits ++ [c] ++ e₁.moving.map Prod.fst))
            rw [waits, moving, nil_append, append_assoc]
            exact perm_append_comm_assoc _ _ _
          · change e.Decided → e₁.Decided
            unfold Decided
            rw [moving]
            exact fun h => h
        next decided =>
          intro ok
          obtain ⟨alive, submissions', out, sure, moving'⟩ :=
            parentWaitDecided _ c decided (Pool.evaluateParentWait_ne_internalError _ _) ok
          rw [moving] at moving'
          refine ⟨failed ▸ alive, submissions'.trans submissions, ?_, Decided.append moving' sure⟩
          unfold owed
          rw [parentWaits_parentWaitDecided, moving', waits, map_append]
          change (c :: (e.parentWaits ++ e.moving.map Prod.fst)).Perm
            (e.parentWaits ++ (e.moving.map Prod.fst ++ [c]))
          rw [← append_assoc]
          exact (perm_append_singleton _ _).symm

theorem onParentWaitDone (queue : e.pending = .onParentWaitDone c out :: ds) :
    Balanced [] [c] e ({ e with pending := ds }.onParentWaitDone cfg c out) := by
  have popped : Balanced [] [c] e { e with pending := ds } := by
    have moving : e.moving = (c, out) :: ds.filterMap Deferred.moved? := by
      unfold moving
      rw [queue]
      rfl
    refine fun ok => ⟨ok, rfl, ?_, fun h p hp => h p (moving ▸ mem_cons_of_mem _ hp)⟩
    unfold owed
    rw [moving]
    exact perm_middle
  refine popped.trans (?_ : Balanced [] [] _ _)
  unfold Engine.onParentWaitDone
  split
  · exact refl _
  · split
    · exact enqueue _ rfl
    · exact refl _
    · exact refl _
    · split
      · exact refl _
      · split
        · exact refl _
        · have flagged (slot : VoterSlot) : Balanced [] [] { e with pending := ds }
              ({ e with pending := ds }.setVoterSlot c.id.slot slot) :=
            frame (fun ok => ok) rfl rfl rfl
          exact (flagged _).trans (enqueue _ rfl)

theorem tick (t : Tick cfg g e e') :
    ∃ new gone, Balanced new gone e e' ∧ (¬ g.submit → new = []) ∧ (¬ g.deliver → gone = []) := by
  have still (h : Balanced [] [] e e') :
      ∃ new gone, Balanced new gone e e' ∧ (¬ g.submit → new = []) ∧ (¬ g.deliver → gone = []) :=
    ⟨[], [], h, fun _ => rfl, fun _ => rfl⟩
  cases t with
  | plain p =>
    exact still (frame (fun ok => p.failed ▸ ok) p.submissions p.parentWaits p.moving)
  | fatal => exact still (inner (.fatal e _))
  | stop => exact still (failed (by simp [Engine.failed, Engine.stop]))
  | receive | cast => exact still (frame (fun ok => ok) rfl rfl rfl)
  | apply => exact still (applyVote _ _ _ _ _)
  | save => exact still (handleCertificate _ _)
  | accept submit =>
    obtain ⟨new, h⟩ : ∃ new, Balanced new [] e (e.acceptCandidate cfg _) := acceptCandidate e _
    exact ⟨new, [], h, fun no => absurd submit no, fun _ => rfl⟩
  | moveOn deliver queue =>
    exact ⟨[], _, onParentWaitDone queue, fun _ => rfl, fun no => absurd deliver no⟩
  | finish => exact still (finishCertificateSave _ _ _)
  | store => exact still (storeSavedCertificate _ _ _)
  | advance => exact still (inner (.advancePresent e))

theorem ticks (t : Ticks cfg g e e') :
    ∃ new gone, Balanced new gone e e' ∧ (¬ g.submit → new = []) ∧ (¬ g.deliver → gone = []) := by
  induction t with
  | refl => exact ⟨[], [], refl e, fun _ => rfl, fun _ => rfl⟩
  | tail _ one ih =>
    obtain ⟨new, gone, h, noNew, noGone⟩ := ih
    obtain ⟨new', gone', h', noNew', noGone'⟩ := tick one
    refine ⟨_, _, h.trans h', fun no => ?_, fun no => ?_⟩
    · rw [noNew no, noNew' no]
      rfl
    · rw [noGone no, noGone' no]
      rfl

end Balanced

/-! ## Deliveries -/

/-- The closures `drainLoop` runs. -/
def drained (cfg : Config) : Nat → Engine → List Deferred
  | 0, _ => []
  | n + 1, e =>
    match e.pending with
    | [] => []
    | d :: ds => d :: drained cfg n ({ e with pending := ds }.runDeferred cfg d)

/-- The candidates one input moves on, and how their waits were decided. -/
def movedOn (cfg : Config) (e : Engine) (t : Time) (input : Input) :
    List (Candidate × ParentWaitOutcome) :=
  (e.stepWith (fun _ => []) (fun e => drained cfg (2 * e.pending.length) e) cfg t input).filterMap
    Deferred.moved?

theorem runDeferred_balanced (queue : e.pending = d :: ds) :
    Balanced [] (d.moved?.toList.map Prod.fst) e ({ e with pending := ds }.runDeferred cfg d) := by
  cases moved : d.moved? with
  | none =>
    have closed : Walks cfg .nothing
        ⟨fun _ => False, fun _ => False, fun _ => False, fun _ => False, fun _ => False,
          False, False, False⟩ e ({ e with pending := ds }.runDeferred cfg d) :=
      runDeferred_walks queue fun some => absurd moved some
    obtain ⟨new, gone, h, noNew, noGone⟩ := Balanced.ticks closed.ticks
    rw [noNew fun h => h, noGone fun h => h] at h
    exact h
  | some p =>
    obtain ⟨c, out⟩ := p
    have decided : d = .onParentWaitDone c out := by
      cases d <;> cases moved
      rfl
    subst decided
    exact .onParentWaitDone queue

theorem filterMap_cons_toList {l : List Deferred} :
    (d :: l).filterMap Deferred.moved? = d.moved?.toList ++ l.filterMap Deferred.moved? := by
  cases moved : d.moved? with
  | none => exact filterMap_cons_none moved
  | some p => exact filterMap_cons_some moved

theorem drainLoop_balanced (n : Nat) (e : Engine) :
    Balanced [] (((drained cfg n e).filterMap Deferred.moved?).map Prod.fst) e
      (e.drainLoop cfg n) := by
  induction n generalizing e with
  | zero => exact .refl e
  | succ n ih =>
    cases queue : e.pending with
    | nil =>
      simp only [drained, drainLoop, queue]
      exact .refl e
    | cons d ds =>
      simp only [drained, drainLoop, queue]
      rw [filterMap_cons_toList, map_append]
      exact (runDeferred_balanced queue).trans (ih _)

/-- No closure that runs comes with an internal error, unless the engine fails. -/
theorem drained_decided (n : Nat) (e : Engine) (h : e.Decided)
    (ok : (e.drainLoop cfg n).failed = false) :
    ∀ p ∈ (drained cfg n e).filterMap Deferred.moved?, p.2 ≠ .internalError := by
  induction n generalizing e with
  | zero => exact fun p hp => by cases hp
  | succ n ih =>
    cases queue : e.pending with
    | nil => simp [drained, queue]
    | cons d ds =>
      simp only [drained, drainLoop, queue] at ok ⊢
      have next := (runDeferred_balanced queue (drainLoop_balanced n _ ok).1).2.2.2 h
      intro p hp
      rw [filterMap_cons_toList] at hp
      rcases mem_append.mp hp with now | later
      · refine h p ?_
        unfold moving
        rw [queue, filterMap_cons_toList]
        exact mem_append_left _ now
      · exact ih _ next ok p later

theorem pending_castVote (e : Engine) (v : Vote) :
    (e.castVote cfg v false).pending = e.pending := by
  unfold castVote
  split <;> rfl

theorem pending_voterNotarizationObserved (e : Engine) (id : CandidateID) :
    (e.voterNotarizationObserved cfg id).pending = e.pending := by
  unfold voterNotarizationObserved
  split
  · rfl
  · unfold tryVoteFinal
    dsimp only
    repeat' split
    all_goals first
      | rfl
      | exact pending_castVote _ _

end Engine

/-- The rounds a closure can cost: a decided candidate queues one more. -/
def Deferred.cost (d : Deferred) : Nat := if d.moved?.isSome then 2 else 1

namespace Engine

variable {cfg : Config} {g : Grant} {e e' : Engine}

theorem pending_onParentWaitDone (e : Engine) (c : Candidate) (out : ParentWaitOutcome) :
    (e.onParentWaitDone cfg c out).pending = e.pending ∨
      ∃ d : Deferred, d.moved? = none ∧
        (e.onParentWaitDone cfg c out).pending = e.pending ++ [d] := by
  unfold onParentWaitDone
  repeat' split
  all_goals first
    | exact .inl rfl
    | exact .inr ⟨_, rfl, rfl⟩

theorem pending_runDeferred (d : Deferred) (e : Engine) :
    ∃ more, (e.runDeferred cfg d).pending = e.pending ++ more ∧
      (more.map Deferred.cost).sum < d.cost := by
  have idle (h : (e.runDeferred cfg d).pending = e.pending) :
      ∃ more, (e.runDeferred cfg d).pending = e.pending ++ more ∧
        (more.map Deferred.cost).sum < d.cost := by
    refine ⟨[], h.trans (append_nil _).symm, ?_⟩
    unfold Deferred.cost
    split <;> simp
  cases d with
  | onParentWaitDone c out =>
    rcases pending_onParentWaitDone e c out with same | ⟨d, plain, one⟩
    · exact idle same
    · have cheap : d.cost = 1 := by simp [Deferred.cost, plain]
      refine ⟨[d], one, ?_⟩
      rw [map_singleton, sum_singleton, cheap]
      exact Nat.one_lt_two
  | voterNotarizationObserved id => exact idle (pending_voterNotarizationObserved _ _)
  | _ => exact idle rfl

theorem drainLoop_pending (n : Nat) (e : Engine) (enough : (e.pending.map Deferred.cost).sum ≤ n) :
    (e.drainLoop cfg n).pending = [] := by
  induction n generalizing e with
  | zero =>
    cases queue : e.pending with
    | nil => exact queue
    | cons d ds =>
      have paid : 0 < d.cost := by
        unfold Deferred.cost
        split <;> omega
      simp only [queue, map_cons, sum_cons] at enough
      omega
  | succ n ih =>
    unfold drainLoop
    split
    · assumption
    next d ds queue =>
      obtain ⟨more, eq, cheaper⟩ := @pending_runDeferred cfg d { e with pending := ds }
      refine ih _ ?_
      rw [eq, map_append, sum_append]
      simp only [queue, map_cons, sum_cons] at enough
      change (ds.map Deferred.cost).sum + _ ≤ n
      omega

theorem drainPending_pending (e : Engine) : (e.drainPending cfg).pending = [] := by
  have bounded (l : List Deferred) : (l.map Deferred.cost).sum ≤ 2 * l.length := by
    induction l with
    | nil => rfl
    | cons d l ih =>
      have cheap : d.cost ≤ 2 := by
        unfold Deferred.cost
        split <;> omega
      simp only [map_cons, sum_cons, length_cons]
      omega
  exact drainLoop_pending _ e (bounded _)

theorem moving_eq_nil (h : e'.pending ⊆ e.pending) (idle : e.moving = []) : e'.moving = [] := by
  unfold moving at idle ⊢
  exact filterMap_eq_nil_iff.mpr fun d hd => filterMap_eq_nil_iff.mp idle d (h hd)

/-- What one input accepts and moves on. -/
theorem step_balanced (e : Engine) (t : Time) (input : Input) (idle : e.moving = [])
    (ok : (e.step cfg t input).failed = false) :
    ∃ new, Balanced new ((e.movedOn cfg t input).map Prod.fst) e (e.step cfg t input) ∧
      (e.step cfg t input).moving = [] ∧ ∀ p ∈ e.movedOn cfg t input, p.2 ≠ .internalError := by
  obtain ⟨new, gone, served, -, none⟩ := Balanced.ticks (@serve_ticks cfg e False t input)
  rw [none fun h => h] at served
  rw [step_eq_stepWith] at ok ⊢
  unfold movedOn
  rcases stepWith_cases e t input with ⟨pending, eq⟩ | eq
  · rw [eq] at ok ⊢
    rw [eq]
    exact ⟨new, served, moving_eq_nil pending idle, fun p hp => by cases hp⟩
  · rw [eq] at ok ⊢
    rw [eq]
    have delivered := @drainLoop_balanced cfg (2 * (e.serve cfg t input).pending.length)
      (e.serve cfg t input)
    refine ⟨new, served.trans delivered, ?_, ?_⟩
    · unfold moving
      rw [drainPending_pending]
      rfl
    · have decided : e.Decided := fun p hp => by
        rw [idle] at hp
        cases hp
      exact drained_decided _ _ ((served (delivered ok).1).2.2.2 decided) ok

/-! ## Whole runs -/

/-- Every accepted candidate waits or is in the log `l` of those moved on. -/
structure Accounted (e : Engine) (l : List (Candidate × ParentWaitOutcome)) : Prop where
  idle : e.moving = []
  submissions : e.submissions.Perm (e.parentWaits ++ l.map Prod.fst)
  sure : ∀ p ∈ l, p.2 ≠ .internalError

theorem Accounted.step (h : e.failed = false → Accounted e l) (t : Time) (input : Input)
    (ok : (e.step cfg t input).failed = false) :
    Accounted (e.step cfg t input) (l ++ e.movedOn cfg t input) := by
  have alive : e.failed = false := by
    obtain ⟨_, _, balanced, -⟩ := Balanced.ticks (step_ticks e t input)
    exact (balanced ok).1
  have before := h alive
  obtain ⟨new, balanced, idle', sure⟩ := step_balanced e t input before.idle ok
  obtain ⟨-, submissions, perm, -⟩ := balanced ok
  unfold owed at perm
  rw [before.idle, idle', map_nil, append_nil, append_nil] at perm
  refine ⟨idle', ?_, ?_⟩
  · rw [submissions, map_append]
    calc new ++ e.submissions
      _ |>.Perm (new ++ (e.parentWaits ++ l.map Prod.fst)) := before.submissions.append_left _
      _ |>.Perm ((e.movedOn cfg t input).map Prod.fst ++ (e.step cfg t input).parentWaits ++
          l.map Prod.fst) := by
        rw [← append_assoc]
        exact perm.append_right _
      _ |>.Perm ((e.step cfg t input).parentWaits ++
          (l.map Prod.fst ++ (e.movedOn cfg t input).map Prod.fst)) := by
        rw [append_assoc]
        refine perm_append_comm.trans ?_
        rw [append_assoc]
  · intro p hp
    rcases mem_append.mp hp with old | now
    · exact before.sure p old
    · exact sure p now

theorem start_accounted (params : Params) (clock : Time) (bs : BootstrapState)
    (ok : (start cfg params clock bs []).1.failed = false) :
    Accounted (start cfg params clock bs []).1 [] := by
  rcases start_ticks cfg params clock bs [] with rejected | ⟨-, ticks⟩
  · rw [rejected]
    exact ⟨rfl, List.Perm.refl _, fun p hp => by cases hp⟩
  · have prepared : ((new params clock bs []).prepare cfg bs.ourVotes).submissions = [] ∧
        ((new params clock bs []).prepare cfg bs.ourVotes).owed = [] := by
      unfold prepare
      split <;> exact ⟨rfl, rfl⟩
    obtain ⟨accepted, gone, balanced, none, -⟩ := Balanced.ticks ticks
    obtain ⟨-, submissions, perm, -⟩ := balanced ok
    rw [none fun h => h, prepared.2] at perm
    obtain ⟨-, owed⟩ := append_eq_nil_iff.mp (nil_perm.mp perm)
    obtain ⟨waits, moving⟩ := append_eq_nil_iff.mp owed
    refine ⟨map_eq_nil_iff.mp moving, ?_, fun p hp => by cases hp⟩
    rw [submissions, none fun h => h, prepared.1, waits]
    exact List.Perm.refl _

end Engine

/-- A run of one engine, with the candidates moved on so far. -/
inductive Ledger (cfg : Config) (bs : BootstrapState) :
    Engine → List (Candidate × ParentWaitOutcome) → Prop where
  | start (params : Params) (clock : Time) :
      Ledger cfg bs (Engine.start cfg params clock bs []).1 []
  | step {e : Engine} {l : List (Candidate × ParentWaitOutcome)} (t : Time) (input : Input) :
      Ledger cfg bs e l → Ledger cfg bs (e.step cfg t input) (l ++ e.movedOn cfg t input)

/-! ## One candidate per slot -/

/-- At most one candidate is accepted per slot: its slot stays taken until it is pruned. -/
structure Once (v : View) : Prop where
  unique : ((v.trace.filterMap Event.submitted?).map fun c => c.id.slot).Nodup
  taken : ∀ c ∈ v.trace.filterMap Event.submitted?, v.voterHorizon ≤ c.id.slot →
    (v.voter c.id.slot).pending ≠ none

namespace Once

variable {cfg : Config} {ctx : Ctx} {v w : View} {slot : VoterSlot}

section

variable (h : Once v)
  (submissions : w.trace.filterMap Event.submitted? = v.trace.filterMap Event.submitted?)
include h submissions

theorem frame (horizon : v.voterHorizon ≤ w.voterHorizon)
    (pending : ∀ s, w.voterHorizon ≤ s → (v.voter s).pending ≠ none → (w.voter s).pending ≠ none) :
    Once w where
  unique := submissions ▸ h.unique
  taken c hc live := pending _ live (h.taken c (submissions ▸ hc) (UInt32.le_trans horizon live))

theorem write (horizon : w.voterHorizon = v.voterHorizon)
    (voter : w.voter = (v.setVoter s slot).voter) (pending : slot.pending = (v.voter s).pending) :
    Once w := by
  refine h.frame submissions (horizon ▸ UInt32.le_refl _) fun t _ taken => ?_
  rw [voter]
  unfold View.setVoter
  dsimp only
  by_cases here : t = s
  · subst here
    rw [update_self, pending]
    exact taken
  · rw [update_of_ne here]
    exact taken

end

theorem cast {slot' : VoterSlot} {b : Vote} (rule : CastRule s slot b slot') :
    slot'.pending = slot.pending := by
  cases rule <;> rfl

theorem accept (h : Once v) (live : v.voterHorizon ≤ c.id.slot)
    (idle : (v.voter c.id.slot).pending = none) :
    Once ((v.setVoter c.id.slot
      { v.voter c.id.slot with pending := some c, storeInFlight := true }).emit (.submitted c))
      where
  unique := by
    change (c.id.slot :: (v.trace.filterMap Event.submitted?).map fun c => c.id.slot).Nodup
    refine nodup_cons.mpr ⟨fun again => ?_, h.unique⟩
    obtain ⟨d, hd, same⟩ := mem_map.mp again
    have taken := h.taken d hd (same ▸ live)
    rw [same] at taken
    exact taken idle
  taken d hd live := by
    change (Function.update v.voter c.id.slot _ d.id.slot).pending ≠ none
    by_cases here : d.id.slot = c.id.slot
    · rw [here, update_self]
      simp
    · rw [update_of_ne here]
      rcases mem_cons.mp hd with rfl | old
      · exact absurd rfl here
      · exact h.taken d old live

theorem move (h : Once v) (m : Move cfg ctx v w) : Once w := by
  have stays : v.voterHorizon ≤ v.voterHorizon := UInt32.le_refl _
  cases m with
  | quiet q =>
    obtain ⟨l, idle, trace⟩ := q.trace
    have none : l.filterMap Event.submitted? = [] := by
      refine filterMap_eq_nil_iff.mpr fun ev mem => ?_
      have quiet := idle ev mem
      cases ev <;> first | rfl | cases quiet
    refine h.frame ?_ (q.voterHorizon ▸ stays) fun s _ taken => q.voter ▸ taken
    rw [trace, filterMap_append, none, nil_append]
  | begin => exact h.frame rfl stays fun _ _ taken => taken
  | cast rule => exact h.write rfl rfl rfl (cast rule)
  | flag rule => exact h.write rfl rfl rfl (cast rule)
  | observe => exact h.write rfl rfl rfl rfl
  | pruneVoter =>
    refine h.frame rfl (View.le_raise _ _) fun s live taken => ?_
    rw [View.voter_pruneVoter live]
    exact taken
  | accept _ live _ idle => exact h.accept live idle
  | wait | settle => exact h.frame rfl stays fun _ _ taken => taken
  | parentDone | validated | stored | dropped => exact h.write rfl rfl rfl rfl
  | sign => exact h.frame rfl stays fun _ _ taken => taken
  | apply =>
    refine h.frame ?_ stays fun _ _ taken => taken
    unfold View.enter
    dsimp only
    split <;> rfl
  | conflict | send | resend | standstill | buffer | save | extract =>
    exact h.frame rfl stays fun _ _ taken => taken
  | store _ _ _ stored =>
    cases stored <;> exact h.frame rfl stays fun _ _ taken => taken

theorem moves (h : Once v) (m : Moves cfg ctx v w) : Once w := by
  induction m with
  | refl => exact h
  | tail _ m ih => exact ih.move m

end Once

namespace Ledger

variable {cfg : Config} {bs : BootstrapState} {e : Engine}
  {l : List (Candidate × ParentWaitOutcome)}

theorem patient (h : Ledger cfg bs e l) : e.Patient := by
  induction h with
  | start params clock =>
    have nobody {e : Engine} (none : e.parentWaits = []) : e.Patient := by
      intro _ c mem
      rw [none] at mem
      cases mem
    rcases Engine.start_ticks cfg params clock bs [] with rejected | ⟨-, ticks⟩
    · rw [rejected]
      exact nobody rfl
    · refine ticks.keep (fun h t => h.tick t) (nobody ?_)
      unfold Engine.prepare
      split <;> rfl
  | step t input _ ih => exact (Engine.step_ticks _ t input).keep (fun h t => h.tick t) ih

theorem accounted (h : Ledger cfg bs e l) (ok : e.failed = false) : e.Accounted l := by
  induction h with
  | start params clock => exact Engine.start_accounted params clock bs ok
  | step t input _ ih => exact Engine.Accounted.step ih t input ok

theorem once (h : Ledger cfg bs e l) : Once e.view := by
  induction h with
  | start params clock =>
    have fresh {v : View} (trace : v.trace = []) : Once v :=
      ⟨by simp [trace], by simp [trace]⟩
    rcases Engine.start_refines params clock bs [] with refused | ⟨-, moves⟩
    · rw [refused]
      exact fresh rfl
    · exact Once.moves (fresh rfl) moves
  | @step e l t input _ ih =>
    have answered : Once (e.answered input).view := by
      rw [(e.answered_marked input).same]
      exact ih.frame rfl (UInt32.le_refl _) fun _ _ taken => taken
    exact answered.moves (e.step_refines t input)

theorem serve (h : Ledger cfg bs e l) (t : Time) (inputs : List Input) :
    Ledger cfg bs
      (inputs.foldl (fun p input => (p.1.step cfg t input, p.2 ++ p.1.movedOn cfg t input))
        (e, l)).1
      (inputs.foldl (fun p input => (p.1.step cfg t input, p.2 ++ p.1.movedOn cfg t input))
        (e, l)).2 := by
  induction inputs generalizing e l with
  | nil => exact h
  | cons input inputs ih => exact ih (h.step t input)

end Ledger

/-- Between inputs no waiting candidate is decided, and every accepted candidate was moved on
exactly once unless it still waits, never for an internal error. -/
theorem parent_wakeups_exactly_once {cfg : Config} {bs : BootstrapState} {e : Engine}
    {l : List (Candidate × ParentWaitOutcome)} (h : Ledger cfg bs e l) (ok : e.failed = false) :
    (∀ c ∈ e.parentWaits, e.pool.evaluateParentWait c = .waiting) ∧
    (∀ c ∈ e.submissions,
      (l.map Prod.fst).count c = if c ∈ e.parentWaits then 0 else 1) ∧
    (∀ c ∈ e.submissions, e.pool.evaluateParentWait c ≠ .waiting →
      (l.map Prod.fst).count c = 1) ∧
    ∀ p ∈ l, p.1 ∈ e.submissions ∧ p.2 ≠ .internalError := by
  have patient := h.patient ok
  obtain ⟨-, perm, sure⟩ := h.accounted ok
  have nodup : e.submissions.Nodup := h.once.unique.of_map _
  have counted : ∀ c ∈ e.submissions,
      (l.map Prod.fst).count c = if c ∈ e.parentWaits then 0 else 1 := by
    intro c mem
    have total := perm.count_eq c
    rw [count_eq_one_of_mem nodup mem, count_append] at total
    split
    next waits =>
      have := count_pos_iff.mpr waits
      omega
    next gone =>
      have := count_eq_zero.mpr gone
      omega
  refine ⟨patient, counted, fun c mem decided => ?_, fun p hp => ⟨?_, sure p hp⟩⟩
  · rw [counted c mem, if_neg fun waits => decided (patient c waits)]
  · exact perm.mem_iff.mpr (mem_append_right _ (mem_map_of_mem hp))

/-- A candidate for slot 1 arrives before its parent is notarized. -/
def soloWakeup : Engine × List (Candidate × ParentWaitOutcome) :=
  let c := soloCandidate 0 genesis
  let inputs : List Input := [.submitCandidate (soloCandidate 1 (parent ⟨0, 0⟩)),
    .submitCandidate c, .storeDone c.id true, .validateDone c.id true,
    .voteSaved (notarizeVote c.id) true,
    .certSaved (soloCert (notarizeVote c.id)) .ok]
  inputs.foldl (fun p input =>
      (p.1.step soloConfig 0 input, p.2 ++ p.1.movedOn soloConfig 0 input))
    ((Engine.start soloConfig soloParams 0 ⟨0, [], []⟩ []).1, [])

/-- It is moved on once, when the certificate is stored. -/
theorem parent_wakeups_exactly_once_solo :
    soloWakeup.1.parentWaits = [] ∧
      (soloWakeup.2.map Prod.fst).count (soloCandidate 1 (parent ⟨0, 0⟩)) = 1 := by
  have run : Ledger soloConfig ⟨0, [], []⟩ soloWakeup.1 soloWakeup.2 :=
    (Ledger.start soloParams 0).serve 0 _
  have waits : soloWakeup.1.parentWaits = [] := by decide +kernel
  have accepted : soloCandidate 1 (parent ⟨0, 0⟩) ∈ soloWakeup.1.submissions := by decide +kernel
  refine ⟨waits, ?_⟩
  rw [(parent_wakeups_exactly_once run (by decide +kernel)).2.1 _ accepted, waits]
  rfl

end Gton.Simplex
