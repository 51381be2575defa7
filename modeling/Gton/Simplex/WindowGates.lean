import Gton.Simplex.Node

/-!
# Slots that are too new

Votes, candidates and broadcasts for slots too many leader windows ahead are turned away. The
bounds are computed in `uint32` from the configuration of the session, which nothing keeps small.
-/

namespace Gton.Simplex

/-! ## The configuration of a session -/

/-- A configuration cell as it is decoded: `malformed` lacks data or has some left over. -/
inductive RawSimplexConfig
  | malformed
  | other (constructor : UInt8)
  | v2 (slotsPerLeaderWindow : UInt32) (noncriticalParams : List (UInt8 × UInt32))

inductive SimplexConfigError
  | malformed
  | unsupportedConstructor (constructor : UInt8)
  | slotsPerLeaderWindow
  deriving DecidableEq

structure SimplexConfig where
  slotsPerLeaderWindow : UInt32
  noncriticalParams : List (UInt8 × UInt32)
  deriving DecidableEq

def parseSimplexConfig : RawSimplexConfig → Except SimplexConfigError SimplexConfig
  | .malformed => .error .malformed
  | .other constructor => .error (.unsupportedConstructor constructor)
  | .v2 slots params => if slots = 0 then .error .slotsPerLeaderWindow else .ok ⟨slots, params⟩

/-- What `Validate` and the gates read of the parameters. A multiplier is the default `1.2` or a
`float32` by its bits. -/
structure ProjectedParams where
  targetRate : Int
  firstBlockTimeout : Int
  firstBlockTimeoutMultiplier : Option UInt32
  candidateResolveTimeoutMultiplier : Option UInt32
  standstillTimeout : Int
  standstillMaxEgressBytesPerS : UInt32
  standstillMinEgressBytesPerS : UInt32
  maxLeaderWindowDesync : UInt32

def defaultParams : ProjectedParams where
  targetRate := 2400000000
  firstBlockTimeout := 1000000000
  firstBlockTimeoutMultiplier := none
  candidateResolveTimeoutMultiplier := none
  standstillTimeout := 10000000000
  standstillMaxEgressBytesPerS := 6553600
  standstillMinEgressBytesPerS := 131072
  maxLeaderWindowDesync := 250

def consensusMilliseconds (value : UInt32) : Int := value.toNat * 1000000

def SimplexConfig.simplexParams (c : SimplexConfig) : ProjectedParams :=
  c.noncriticalParams.foldl (fun params (id, value) =>
    match id.toNat with
    | 0 => { params with targetRate := consensusMilliseconds value }
    | 1 => { params with firstBlockTimeout := consensusMilliseconds value }
    | 2 => { params with firstBlockTimeoutMultiplier := some value }
    | 5 => { params with candidateResolveTimeoutMultiplier := some value }
    | 8 => { params with standstillTimeout := consensusMilliseconds value }
    | 9 => { params with standstillMaxEgressBytesPerS := value }
    | 10 => { params with maxLeaderWindowDesync := value }
    | 16 => { params with standstillMinEgressBytesPerS := value }
    | _ => params) defaultParams

/-- `NaN` or an infinity. -/
def notFinite (multiplier : Option UInt32) : Bool :=
  multiplier.any fun bits => bits &&& 0x7f800000 == 0x7f800000

/-- `Validate`; both zeros compare equal. -/
def ProjectedParams.validate (p : ProjectedParams) : Except String Unit :=
  if p.targetRate ≤ 0 then .error "simplex: target rate must be positive"
  else if p.firstBlockTimeout < 0 then
    .error "simplex: first block timeout must not be negative"
  else if p.firstBlockTimeoutMultiplier.any (0x80000000 < ·) ||
      notFinite p.firstBlockTimeoutMultiplier then
    .error "simplex: first block timeout multiplier must be finite and nonnegative"
  else if p.candidateResolveTimeoutMultiplier.any (fun bits => bits = 0 ∨ 0x80000000 ≤ bits) ||
      notFinite p.candidateResolveTimeoutMultiplier then
    .error "simplex: candidate resolve timeout multiplier must be finite and positive"
  else if p.standstillTimeout ≤ 0 then .error "simplex: standstill timeout must be positive"
  else if p.standstillMaxEgressBytesPerS = 0 ∧ p.standstillMinEgressBytesPerS = 0 then
    .error "simplex: standstill egress budget must be positive"
  else .ok ()

/-! ## Bounds that do not wrap -/

variable {slot desync spw : UInt32}

theorem windowBound_le {window : UInt32} (pos : 0 < spw.toNat)
    (fits : (window.toNat + desync.toNat + 1) * spw.toNat < 2 ^ 32) :
    (window + desync + 1) * spw ≤ slot ↔ window.toNat + desync.toNat < slot.toNat / spw.toNat := by
  have sum : window.toNat + desync.toNat + 1 < 2 ^ 32 :=
    Nat.lt_of_le_of_lt (Nat.le_mul_of_pos_right _ pos) fits
  have next : (window + desync + 1).toNat = window.toNat + desync.toNat + 1 := by
    rw [UInt32.toNat_add, UInt32.toNat_add, UInt32.toNat_one,
      Nat.mod_eq_of_lt (by omega : window.toNat + desync.toNat < 2 ^ 32), Nat.mod_eq_of_lt sum]
  rw [UInt32.le_iff_toNat_le, UInt32.toNat_mul, next, Nat.mod_eq_of_lt fits, Nat.lt_iff_add_one_le,
    Nat.le_div_iff_mul_le pos]

theorem not_pastBound {n : Nat} (pos : 0 < spw.toNat) (past : 2 ^ 32 ≤ (n + 1) * spw.toNat) :
    ¬ n < slot.toNat / spw.toNat := by
  rw [Nat.lt_iff_add_one_le, Nat.le_div_iff_mul_le pos]
  have := slot.toNat_lt
  omega

theorem broadcastBound_lt {now : UInt32} (fits : now.toNat + desync.toNat * spw.toNat < 2 ^ 32) :
    now + desync * spw < slot ↔ now.toNat + desync.toNat * spw.toNat < slot.toNat := by
  rw [UInt32.lt_iff_toNat_lt, UInt32.toNat_add, UInt32.toNat_mul,
    Nat.mod_eq_of_lt (by omega : desync.toNat * spw.toNat < 2 ^ 32), Nat.mod_eq_of_lt fits]

namespace Engine

variable {cfg : Config} {e : Engine} {here : PoolSlot}

/-- The bounds fit a `uint32`; the one for candidates need not while no slot is free that its
wrapped value would turn away. -/
structure GatesFit (cfg : Config) (e : Engine) : Prop where
  message : (e.pool.now.toNat / cfg.spw.toNat + e.params.maxLeaderWindowDesync.toNat + 1) *
    cfg.spw.toNat < 2 ^ 32
  candidate : (e.voter.currentWindow.toNat + e.params.maxLeaderWindowDesync.toNat + 1) *
    cfg.spw.toNat < 2 ^ 32 ∨
    ∀ slot here, (e.voter.currentWindow + e.params.maxLeaderWindowDesync + 1) * cfg.spw ≤ slot →
      e.voter.slots.get? slot = some here → ¬ (here.votedNotar = none ∧ here.pending = none)

/-- What the gates do with a slot, in unbounded integers. -/
structure GatesExact (cfg : Config) (e : Engine) (slot : UInt32) : Prop where
  message : e.firstTooNewSlot cfg ≤ slot ↔
    e.pool.now.toNat / cfg.spw.toNat + e.params.maxLeaderWindowDesync.toNat <
      slot.toNat / cfg.spw.toNat
  /-- A vote that is wanted is dropped exactly when it is too new. -/
  vote : ∀ {src : PeerID} {idx : Nat} {v : Vote} {sig : Signature} {here : PoolSlot},
    v.slot = slot → idx < cfg.validators.length → e.pool.slots.get? slot = some here →
    (here.votes idx).wants v = true →
    (e.handleVote cfg src (some idx) v sig = e ↔
      e.pool.now.toNat / cfg.spw.toNat + e.params.maxLeaderWindowDesync.toNat <
        slot.toNat / cfg.spw.toNat)
  /-- No certificate that is needed is dropped, however new. -/
  certificate : ∀ {cert : Certificate} {here : PoolSlot}, cert.vote.slot = slot →
    e.pool.slots.get? slot = some here → here.needs cert.vote = true →
    e.knowsCertificate cfg cert = false
  /-- A candidate for a free slot is dropped exactly when it is too new. -/
  candidate : ∀ {c : Candidate} {here : VoterSlot}, c.id.slot = slot →
    e.voter.slots.get? slot = some here → here.votedNotar = none → here.pending = none →
    (e.acceptCandidate cfg c = e ↔
      e.voter.currentWindow.toNat + e.params.maxLeaderWindowDesync.toNat <
        slot.toNat / cfg.spw.toNat)
  broadcast : e.started = true → e.failed = false → e.pool.slots.firstNonFinalized ≤ slot →
    ∀ id checked, e.precheckCandidateBroadcast cfg slot id checked =
        .error "simplex: slot is too far in the future" ↔
      e.pool.now.toNat + e.params.maxLeaderWindowDesync.toNat * cfg.spw.toNat < slot.toNat
  current : slot.toNat / cfg.spw.toNat = e.pool.now.toNat / cfg.spw.toNat →
    ¬ e.firstTooNewSlot cfg ≤ slot

theorem registerParentWait_voter (e : Engine) (c : Candidate) :
    (e.registerParentWait c).voter = e.voter := by
  unfold registerParentWait parentWaitDecided fatal
  repeat' split
  all_goals rfl

theorem handleVote_eq_iff {src : PeerID} {idx : Nat} {v : Vote} {sig : Signature}
    (member : idx < cfg.validators.length) (found : e.pool.slots.get? v.slot = some here)
    (wants : (here.votes idx).wants v = true) :
    e.handleVote cfg src (some idx) v sig = e ↔ e.firstTooNewSlot cfg ≤ v.slot := by
  unfold handleVote
  dsimp only
  rw [if_neg (Nat.not_le.mpr member), found]
  simp only [wants, if_true]
  split
  next tooNew =>
    simp [tooNew]
  next soon =>
    simp only [soon, iff_false]
    intro same
    simpa using congrArg Engine.pendingVerify same

theorem knowsCertificate_of_needs {cert : Certificate}
    (found : e.pool.slots.get? cert.vote.slot = some here) (needs : here.needs cert.vote = true) :
    e.knowsCertificate cfg cert = false := by
  have live := UInt32.not_lt.mpr (SlotMap.le_of_get? found)
  unfold knowsCertificate
  split
  · unfold SlotMap.get? at found
    rw [if_neg live, Option.some.injEq] at found
    unfold SlotMap.peek
    rw [if_neg live]
    cases stored : e.pool.slots.slots cert.vote.slot with
    | none => rfl
    | some slot =>
      rw [stored, Option.getD_some] at found
      simp [found, needs]
  · simp [found, needs]

/-- A candidate the gate lets through becomes the pending one of its slot. -/
theorem acceptCandidate_eq_iff {c : Candidate} {here : VoterSlot}
    (found : e.voter.slots.get? c.id.slot = some here) (unvoted : here.votedNotar = none)
    (free : here.pending = none) :
    e.acceptCandidate cfg c = e ↔
      (e.voter.currentWindow + e.params.maxLeaderWindowDesync + 1) * cfg.spw ≤ c.id.slot := by
  unfold acceptCandidate
  rw [found]
  simp only [unvoted, free, Option.isSome_none, Bool.or_self, Bool.false_eq_true, if_false]
  split
  next tooNew =>
    simp [tooNew]
  next soon =>
    simp only [soon, iff_false]
    intro same
    have voter := congrArg Engine.voter same
    rw [registerParentWait_voter] at voter
    have entered := congrArg (fun v => v.slots.get? c.id.slot) voter
    dsimp only [enqueue, emit, setVoterSlot] at entered
    rw [SlotMap.get?_set_self (SlotMap.le_of_get? found), found, Option.some.injEq] at entered
    rw [← entered] at free
    cases free

theorem precheck_tooFar_iff {id : Hash} {checked : Bool} (started : e.started = true)
    (ok : e.failed = false) (live : e.pool.slots.firstNonFinalized ≤ slot) :
    e.precheckCandidateBroadcast cfg slot id checked =
        .error "simplex: slot is too far in the future" ↔
      e.pool.now + e.params.maxLeaderWindowDesync * cfg.spw < slot := by
  unfold precheckCandidateBroadcast
  rw [if_neg (by simp [started, ok]), if_neg (UInt32.not_lt.mpr live)]
  split
  next far =>
    simp [far]
  next near =>
    simp only [near, iff_false]
    repeat' split
    all_goals simp

theorem GatesFit.gatesExact (pos : 0 < cfg.spw.toNat) (fits : e.GatesFit cfg) (slot : UInt32) :
    e.GatesExact cfg slot := by
  have division : (e.pool.now / cfg.spw).toNat = e.pool.now.toNat / cfg.spw.toNat :=
    UInt32.toNat_div _ _
  have message : e.firstTooNewSlot cfg ≤ slot ↔
      e.pool.now.toNat / cfg.spw.toNat + e.params.maxLeaderWindowDesync.toNat <
        slot.toNat / cfg.spw.toNat := by
    exact windowBound_le pos (division ▸ fits.message)
  have within :
      e.pool.now.toNat + e.params.maxLeaderWindowDesync.toNat * cfg.spw.toNat < 2 ^ 32 := by
    have split_ := Nat.div_add_mod e.pool.now.toNat cfg.spw.toNat
    have rest := Nat.mod_lt e.pool.now.toNat pos
    have bound := fits.message
    rw [Nat.add_mul, Nat.add_mul, Nat.mul_comm (_ / _)] at bound
    omega
  refine ⟨message, ?_, ?_, ?_, ?_, ?_⟩
  · rintro src idx v sig here rfl member found wants
    exact (handleVote_eq_iff member found wants).trans message
  · rintro cert here rfl found needs
    exact knowsCertificate_of_needs found needs
  · rintro c here rfl found unvoted free
    rw [acceptCandidate_eq_iff found unvoted free]
    by_cases small : (e.voter.currentWindow.toNat + e.params.maxLeaderWindowDesync.toNat + 1) *
        cfg.spw.toNat < 2 ^ 32
    · exact windowBound_le pos small
    · -- no slot is past the bound, and the wrapped one meets no free slot
      have taken := fits.candidate.resolve_left small
      refine iff_of_false (fun tooNew => taken _ here tooNew found ⟨unvoted, free⟩) ?_
      exact not_pastBound pos (Nat.not_lt.mp small)
  · intro started ok live id checked
    exact (precheck_tooFar_iff started ok live).trans (broadcastBound_lt within)
  · intro same tooNew
    have := message.mp tooNew
    omega

/-- The last slot shows a wrapped bound: it is never past the exact one. -/
theorem GatesFit.of_gatesExact (pos : 0 < cfg.spw.toNat)
    (exact_ : ∀ slot, e.GatesExact cfg slot) : e.GatesFit cfg := by
  have last (bound : UInt32) : bound ≤ 0xffffffff := by
    rw [UInt32.le_iff_toNat_le]
    exact Nat.le_of_lt_succ bound.toNat_lt
  constructor
  · by_contra past
    have dropped := (exact_ 0xffffffff).message.mp (last _)
    exact not_pastBound pos (Nat.not_lt.mp past) dropped
  · rw [or_iff_not_imp_left]
    rintro past slot here tooNew found ⟨unvoted, free⟩
    have gate := (exact_ slot).candidate (c := soloCandidate slot genesis) rfl found unvoted free
    have dropped := (acceptCandidate_eq_iff (c := soloCandidate slot genesis) found unvoted
      free).mpr tooNew
    exact not_pastBound pos (Nat.not_lt.mp past) (gate.mp dropped)

end Engine

/-- Exactly while its bounds do not wrap, every gate turns away exactly the slots that are too far
ahead, and no slot of the current window. -/
theorem slot_gates_exact (raw : RawSimplexConfig) {config : SimplexConfig}
    (parsed : parseSimplexConfig raw = .ok config)
    (_valid : config.simplexParams.validate = .ok ()) {cfg : Config}
    (spw : cfg.spw = config.slotsPerLeaderWindow) {e : Engine}
    (_desync : e.params.maxLeaderWindowDesync = config.simplexParams.maxLeaderWindowDesync) :
    (∀ slot, e.GatesExact cfg slot) ↔ e.GatesFit cfg := by
  have pos : 0 < cfg.spw.toNat := by
    unfold parseSimplexConfig at parsed
    split at parsed
    · cases parsed
    · cases parsed
    · split at parsed
      · cases parsed
      next some_ =>
        cases parsed
        rw [spw]
        exact UInt32.lt_iff_toNat_lt.mp (UInt32.pos_iff_ne_zero.mpr some_)
  exact ⟨.of_gatesExact pos, fun fits slot => fits.gatesExact pos slot⟩

theorem slot_gates_exact_solo : let e := (Engine.start soloConfig soloParams 0 ⟨0, [], []⟩ []).1
    e.GatesFit soloConfig ∧ ∀ slot, e.GatesExact soloConfig slot := by
  intro e
  have fit : e.GatesFit soloConfig := ⟨by decide +kernel, .inl (by decide +kernel)⟩
  refine ⟨fit, ?_⟩
  exact (slot_gates_exact (.v2 8 [(10, 1)]) rfl (by decide +kernel) rfl
    (by decide +kernel)).mpr fit

/-- With the largest allowed desync of an accepted configuration no vote passes the gate, not even
one for the current window. -/
theorem slot_gates_wrap :
    ∃ config : SimplexConfig, parseSimplexConfig (.v2 8 [(10, 0xffffffff)]) = .ok config ∧
      config.simplexParams.validate = .ok () ∧ config.slotsPerLeaderWindow = soloConfig.spw ∧
      let params := { soloParams with
        maxLeaderWindowDesync := config.simplexParams.maxLeaderWindowDesync }
      let e := (Engine.start soloConfig params 0 ⟨0, [], []⟩ []).1
      e.started = true ∧ e.failed = false ∧ e.pool.now = 0 ∧ e.firstTooNewSlot soloConfig = 0 ∧
        (e.handleVote soloConfig 0 (some 0) (skipVote 0) []).pendingVerify = [] ∧
        ¬ e.GatesExact soloConfig 0 := by
  refine ⟨⟨8, [(10, 0xffffffff)]⟩, rfl, by decide +kernel, rfl, by decide +kernel,
    by decide +kernel, by decide +kernel, by decide +kernel, by decide +kernel, ?_⟩
  intro exact_
  exact exact_.current (by decide +kernel) (by decide +kernel)

end Gton.Simplex
