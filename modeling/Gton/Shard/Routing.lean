import Gton.Shard.Ident

/-!
# Hypercube routing

A message travels from shard to shard by rewriting its 96-bit routing address, workchain first
and then four bits of the prefix at a time, until the rewritten address leaves the current shard.
Every hop lands in a neighbour and lengthens the part of the address that is the destination's.
-/

namespace Gton.Shard

open Gton.Lib.Bits

def routingAddressBits : Int := 96

/-- `InterpolatePrefix`: the first `dstBits` bits are the destination's. -/
def interpolatePrefix (src dst : AccountPrefix) (dstBits : Int) : AccountPrefix :=
  if dstBits ≤ 0 then src
  else if dstBits ≥ routingAddressBits then dst
  else if dstBits ≥ 32 then
    let mask := BitVec.allOnes 64 >>> (dstBits - 32).toNat
    { workchain := dst.workchain
      prefix_ := dst.prefix_ &&& ~~~mask ||| src.prefix_ &&& mask }
  else
    let mask := BitVec.allOnes 32 >>> dstBits.toNat
    { workchain := dst.workchain &&& ~~~mask ||| src.workchain &&& mask
      prefix_ := src.prefix_ }

inductive RoutingError
  /-- `ErrInvalidInput`: "transit address is outside the current shard". -/
  | transitOutsideShard
  deriving DecidableEq

/-- The loop: four more bits a round, until the hop leaves `lower..upper`. The source's loop has
no bound; `none` says that it still runs after `fuel` rounds. -/
def leaveShard (lower upper transit diff : BitVec 64) : Nat → BitVec 64 → Nat → Option Nat
  | 0, _, _ => none
  | fuel + 1, mask, matching =>
    let mask := mask >>> 4
    let hop := transit ^^^ (diff &&& ~~~mask)
    let matching := matching + 4
    if hop < lower ∨ upper < hop then some matching
    else leaveShard lower upper transit diff fuel mask matching

def performHypercubeRouting (fuel : Nat) (src dst : AccountPrefix) (current : ShardIdent)
    (usedDstBits : Int) : Option (Except RoutingError (Int × Int)) :=
  let transit := interpolatePrefix src dst usedDstBits
  if !current.containsPrefix transit then some (.error .transitOutsideShard)
  else if current.containsPrefix dst then some (.ok (routingAddressBits, routingAddressBits))
  else if transit.workchain = masterchainID ∨ dst.workchain = masterchainID then
    some (.ok (usedDstBits, routingAddressBits))
  else if transit.workchain ≠ dst.workchain then some (.ok (usedDstBits, 32))
  else
    let lower := current.shard &&& (current.shard - 1#64)
    let upper := current.shard ||| (current.shard - 1#64)
    let diff := dst.prefix_ ^^^ transit.prefix_
    let matching := leadingZeros diff / 4 * 4
    let mask := BitVec.allOnes 64 >>> matching
    (leaveShard lower upper transit.prefix_ diff fuel mask matching).map fun (matching : Nat) =>
      .ok (28 + (matching : Int), 32 + (matching : Int))

/-! ## Addresses -/

/-- How many leading bits of the routing address are the destination's already. -/
def matchedBits (p dst : AccountPrefix) : Nat :=
  if p.workchain = dst.workchain then 32 + leadingZeros (p.prefix_ ^^^ dst.prefix_)
  else leadingZeros (p.workchain ^^^ dst.workchain)

theorem interpolatePrefix_zero (src dst : AccountPrefix) : interpolatePrefix src dst 0 = src := rfl

theorem interpolatePrefix_all (src dst : AccountPrefix) :
    interpolatePrefix src dst routingAddressBits = dst := rfl

variable {n fuel : Nat} {dst p : AccountPrefix}

theorem interpolatePrefix_splice (src dst : AccountPrefix) (le : n ≤ 64) :
    interpolatePrefix src dst (32 + (n : Int)) =
      ⟨dst.workchain, splice n dst.prefix_ src.prefix_⟩ := by
  unfold interpolatePrefix routingAddressBits
  rw [if_neg (by omega)]
  split
  · rw [splice_all _ _ (by omega)]
  · rw [if_pos (by omega)]
    simp only [show (32 + (n : Int) - 32).toNat = n by omega]
    rfl

theorem matchedBits_self (dst : AccountPrefix) : matchedBits dst dst = 96 := by
  unfold matchedBits
  rw [if_pos rfl, BitVec.xor_self, leadingZeros_zero]

theorem leadingZeros_lt_of_ne (ne : p ≠ dst) (same : p.workchain = dst.workchain) :
    leadingZeros (p.prefix_ ^^^ dst.prefix_) < 64 := by
  apply leadingZeros_lt
  intro zero
  apply ne
  cases p
  cases dst
  simp only [AccountPrefix.mk.injEq]
  exact ⟨same, BitVec.xor_eq_zero_iff.mp zero⟩

theorem matchedBits_lt_of_ne (ne : p ≠ dst) : matchedBits p dst < 96 := by
  unfold matchedBits
  split
  next same =>
    have := leadingZeros_lt_of_ne ne same
    omega
  · have := leadingZeros_le (p.workchain ^^^ dst.workchain)
    omega

theorem matchedBits_lt_32 (ne : p.workchain ≠ dst.workchain) : matchedBits p dst < 32 := by
  unfold matchedBits
  rw [if_neg ne]
  apply leadingZeros_lt
  intro zero
  exact ne (BitVec.xor_eq_zero_iff.mp zero)

theorem le_matchedBits_splice (dst : AccountPrefix) (lo : BitVec 64) (le : n ≤ 64) :
    32 + n ≤ matchedBits ⟨dst.workchain, splice n dst.prefix_ lo⟩ dst := by
  unfold matchedBits
  rw [if_pos rfl]
  exact Nat.add_le_add_left (le_leadingZeros_splice dst.prefix_ lo le) 32

/-! ## The loop -/

section Loop

variable {s : ShardIdent} (tagged : s.shard ≠ 0#64)
include tagged

theorem outside_iff (same : s.workchain = p.workchain) :
    (p.prefix_ < s.shard &&& (s.shard - 1#64) ∨ s.shard ||| (s.shard - 1#64) < p.prefix_) ↔
      s.containsPrefix p ≠ true := by
  rw [ne_eq, ShardIdent.contains_iff tagged, ← not_iff_not, not_or, not_not]
  refine (between_iff_agreeFrom tagged).trans ?_
  simp only [same, true_and]
  rfl

/-- The loop leaves the shard within the rounds that are left, at the first group that does. -/
theorem leaveShard_spec {transit : AccountPrefix} (same : transit.workchain = dst.workchain)
    (home : s.workchain = transit.workchain) (away : s.containsPrefix dst ≠ true) (fuel : Nat) :
    ∀ matching, 64 ≤ matching + 4 * fuel → matching % 4 = 0 → matching ≤ 60 →
      s.containsPrefix ⟨dst.workchain, splice matching dst.prefix_ transit.prefix_⟩ = true →
      ∃ n, leaveShard (s.shard &&& (s.shard - 1#64)) (s.shard ||| (s.shard - 1#64)) transit.prefix_
          (dst.prefix_ ^^^ transit.prefix_) fuel (BitVec.allOnes 64 >>> matching) matching
            = some (n + 4) ∧ matching ≤ n ∧ n % 4 = 0 ∧ n ≤ 60 ∧
        s.containsPrefix ⟨dst.workchain, splice n dst.prefix_ transit.prefix_⟩ = true ∧
        s.containsPrefix ⟨dst.workchain, splice (n + 4) dst.prefix_ transit.prefix_⟩ ≠ true := by
  induction fuel with
  | zero =>
    intro matching enough aligned le
    omega
  | succ fuel ih =>
    intro matching enough aligned le inside
    unfold leaveShard
    simp only [← BitVec.shiftRight_add, xor_and_not_eq_splice]
    have out := outside_iff tagged
      (p := ⟨dst.workchain, splice (matching + 4) dst.prefix_ transit.prefix_⟩) (home.trans same)
    split
    next left =>
      exact ⟨matching, rfl, Nat.le_refl _, aligned, le, inside, out.mp left⟩
    next stays =>
      have still := not_not.mp (mt out.mpr stays)
      have more : matching + 4 ≤ 60 := by
        -- after all 64 bits the hop is the destination, which is not in the shard
        by_contra last
        rw [splice_all _ _ (by omega)] at still
        exact away still
      obtain ⟨n, found, grown, rest⟩ := ih (matching + 4) (by omega) (by omega) more still
      exact ⟨n, found, by omega, rest⟩

end Loop

/-! ## One hop -/

/-- What a hop out of `s` does: it starts in the shard, ends outside, every shard it can end in
is a neighbour, and more of the address is the destination's. -/
structure Leaves (s : ShardIdent) (src dst : AccountPrefix) (cur next : Int) : Prop where
  lt : cur < next
  inside : s.containsPrefix (interpolatePrefix src dst cur) = true
  outside : s.containsPrefix (interpolatePrefix src dst next) = false
  neighbor : ∀ t : ShardIdent, t.Valid → t.containsPrefix (interpolatePrefix src dst next) = true →
    isNeighbor s.workchain s.shard t.workchain t.shard = true
  closer : matchedBits src dst < matchedBits (interpolatePrefix src dst next) dst

section Hop

variable {s : ShardIdent} {src dst : AccountPrefix} (valid : s.Valid)
  (here : s.containsPrefix src = true)

include valid here in
theorem leaves_masterchain (away : s.containsPrefix dst = false)
    (master : src.workchain = masterchainID ∨ dst.workchain = masterchainID) :
    Leaves s src dst 0 routingAddressBits where
  lt := by decide
  inside := here
  outside := away
  neighbor t ht hop := by
    have home := ((ShardIdent.contains_iff valid.tagged).mp here).1
    have there := ((ShardIdent.contains_iff ht.tagged).mp hop).1
    apply isNeighbor_masterchain valid ht
    rw [home, there]
    exact master
  closer := by
    rw [interpolatePrefix_all, matchedBits_self]
    apply matchedBits_lt_of_ne
    intro same
    rw [same, away] at here
    cases here

include valid here in
/-- Into the other workchain the prefix stays, so the two shards share it. -/
theorem leaves_workchain (other : src.workchain ≠ dst.workchain) : Leaves s src dst 0 32 := by
  have hop : interpolatePrefix src dst 32 = ⟨dst.workchain, src.prefix_⟩ := by
    have spliced := interpolatePrefix_splice src dst (n := 0) (by omega)
    rw [splice_of_le_leadingZeros (Nat.zero_le _)] at spliced
    exact spliced
  obtain ⟨home, agree⟩ := (ShardIdent.contains_iff valid.tagged).mp here
  constructor
  · decide
  · exact here
  · rw [hop, ← Bool.not_eq_true, ShardIdent.contains_iff valid.tagged]
    rintro ⟨same, -⟩
    exact other (home.symm.trans same)
  · intro t ht contains
    rw [hop] at contains
    obtain ⟨-, agrees⟩ := (ShardIdent.contains_iff ht.tagged).mp contains
    apply isNeighbor_of_group (g := 0) valid.tagged ht.tagged
    intro i hs ht differ
    exact absurd ((agree i hs).symm.trans (agrees i ht)) differ
  · have := matchedBits_lt_32 other
    have := le_matchedBits_splice dst src.prefix_ (n := 0) (by omega)
    rw [splice_of_le_leadingZeros (Nat.zero_le _)] at this
    rw [hop]
    omega

include valid in
/-- Within the workchain the hop rewrites one group of four bits. -/
theorem leaves_group (same : src.workchain = dst.workchain) (aligned : n % 4 = 0)
    (le : n ≤ 60) (grown : leadingZeros (dst.prefix_ ^^^ src.prefix_) / 4 * 4 ≤ n)
    (inside : s.containsPrefix ⟨dst.workchain, splice n dst.prefix_ src.prefix_⟩ = true)
    (outside : s.containsPrefix ⟨dst.workchain, splice (n + 4) dst.prefix_ src.prefix_⟩ ≠ true) :
    Leaves s src dst (28 + ((n + 4 : Nat) : Int)) (32 + ((n + 4 : Nat) : Int)) := by
  have cur : (28 : Int) + ((n + 4 : Nat) : Int) = 32 + (n : Int) := by omega
  rw [cur]
  constructor
  · omega
  · rw [interpolatePrefix_splice _ _ (by omega)]
    exact inside
  · rw [interpolatePrefix_splice _ _ (by omega)]
    exact Bool.eq_false_iff.mpr outside
  · intro t ht contains
    rw [interpolatePrefix_splice _ _ (by omega)] at contains
    obtain ⟨home, before⟩ := (ShardIdent.contains_iff valid.tagged).mp inside
    obtain ⟨there, after⟩ := (ShardIdent.contains_iff ht.tagged).mp contains
    apply isNeighbor_of_group (g := 15 - n / 4) valid.tagged ht.tagged
    intro i hs ht differ
    have old := before i hs
    have new := after i ht
    rw [getLsbD_splice] at old new
    refine ⟨home.trans there.symm, ?_⟩
    -- outside the group both hops have the same bit
    by_contra other
    apply differ
    rw [← old, ← new]
    by_cases low : n + 4 + i < 64
    · rw [if_pos low, if_pos (by omega)]
    · rw [if_neg low, if_neg (by omega)]
  · rw [interpolatePrefix_splice _ _ (by omega)]
    have closer := le_matchedBits_splice dst src.prefix_ (n := n + 4) (by omega)
    have start : matchedBits src dst = 32 + leadingZeros (dst.prefix_ ^^^ src.prefix_) := by
      unfold matchedBits
      rw [if_pos same, BitVec.xor_comm]
    omega

include valid here in
theorem routes_out (away : s.containsPrefix dst = false) (enough : 16 ≤ fuel) :
    ∃ cur next, performHypercubeRouting fuel src dst s 0 = some (.ok (cur, next)) ∧
      Leaves s src dst cur next := by
  unfold performHypercubeRouting
  rw [interpolatePrefix_zero]
  simp only [here, away, Bool.not_true, Bool.false_eq_true, if_false]
  by_cases master : src.workchain = masterchainID ∨ dst.workchain = masterchainID
  · rw [if_pos master]
    exact ⟨_, _, rfl, leaves_masterchain valid here away master⟩
  · rw [if_neg master]
    by_cases same : src.workchain = dst.workchain
    case neg =>
      rw [if_pos same]
      exact ⟨_, _, rfl, leaves_workchain valid here same⟩
    case pos =>
      rw [if_neg (not_not.mpr same)]
      have home := ((ShardIdent.contains_iff valid.tagged).mp here).1
      have stay : splice (leadingZeros (dst.prefix_ ^^^ src.prefix_) / 4 * 4) dst.prefix_
          src.prefix_ = src.prefix_ := splice_of_le_leadingZeros (by omega)
      have differ : dst ≠ src := by
        rintro rfl
        rw [here] at away
        cases away
      have short := leadingZeros_lt_of_ne differ same.symm
      obtain ⟨n, found, grown, aligned, le, inside, outside⟩ :=
        leaveShard_spec valid.tagged same home (Bool.eq_false_iff.mp away) fuel
          (leadingZeros (dst.prefix_ ^^^ src.prefix_) / 4 * 4) (by omega) (by omega) (by omega)
          (by rw [stay, ← same]; exact here)
      rw [found]
      exact ⟨_, _, rfl, leaves_group valid same aligned le grown inside outside⟩

end Hop

/-! ## Whole journeys -/

/-- A shard layout: the shards of the active workchains, every account of such a workchain in
exactly one of them. -/
structure Partition where
  active : BitVec 32 → Prop
  shards : ShardIdent → Prop
  valid : ∀ s, shards s → s.Valid
  covers : ∀ p : AccountPrefix, active p.workchain → ∃ s, shards s ∧ s.containsPrefix p = true
  disjoint : ∀ s t p, shards s → shards t → s.containsPrefix p = true →
    t.containsPrefix p = true → s = t

/-- From shard `s`, with the address interpolated to `p`, the message is in its destination's
shard after at most that many hops, each of which the routing decides and the layout can take. -/
inductive Delivered (fuel : Nat) (P : Partition) (dst : AccountPrefix) :
    Nat → ShardIdent → AccountPrefix → Prop
  | here {n s p} : s.containsPrefix dst = true → Delivered fuel P dst n s p
  | hop {n s p cur next} : performHypercubeRouting fuel p dst s 0 = some (.ok (cur, next)) →
      (∃ t, P.shards t ∧ t.containsPrefix (interpolatePrefix p dst next) = true) →
      (∀ t, P.shards t → t.containsPrefix (interpolatePrefix p dst next) = true →
        Delivered fuel P dst n t (interpolatePrefix p dst next)) →
      Delivered fuel P dst (n + 1) s p

variable {src : AccountPrefix} {s : ShardIdent}

/-- A hop stays in the active workchains. -/
theorem Leaves.workchain {cur next : Int}
    (fuel : Nat) (route : performHypercubeRouting fuel src dst s 0 = some (.ok (cur, next)))
    (away : s.containsPrefix dst = false) :
    (interpolatePrefix src dst next).workchain = dst.workchain := by
  have past (n : Int) (le : 32 ≤ n) : (interpolatePrefix src dst n).workchain = dst.workchain := by
    unfold interpolatePrefix
    rw [if_neg (by omega)]
    split <;> rfl
  apply past
  unfold performHypercubeRouting at route
  simp only [away] at route
  split at route
  · cases route
  · simp only [Bool.false_eq_true, if_false] at route
    split at route
    · cases route
      decide
    · split at route
      · cases route
        decide
      · rw [Option.map_eq_some_iff] at route
        obtain ⟨m, -, eq⟩ := route
        cases eq
        omega

theorem delivered_of_matchedBits (enough : 16 ≤ fuel) (P : Partition)
    (reachable : P.active dst.workchain) (n : Nat) :
    ∀ s p, P.shards s → s.containsPrefix p = true → 96 ≤ matchedBits p dst + n →
      Delivered fuel P dst n s p := by
  induction n with
  | zero =>
    intro s p hs here all
    by_cases arrived : p = dst
    · exact .here (arrived ▸ here)
    · have := matchedBits_lt_of_ne arrived
      omega
  | succ n ih =>
    intro s p hs here all
    cases away : s.containsPrefix dst with
    | true => exact .here away
    | false =>
      obtain ⟨cur, next, route, leaves⟩ := routes_out (P.valid s hs) here away enough
      have active : P.active (interpolatePrefix p dst next).workchain := by
        rw [Leaves.workchain fuel route away]
        exact reachable
      apply Delivered.hop route (P.covers _ active)
      intro t ht contains
      have := leaves.closer
      exact ih t _ ht contains (by omega)

/-- Routing out of a valid shard returns; it stays when the destination is in the shard and
otherwise makes one hop to a neighbour that brings the address closer to the destination's, so
that in every layout the message arrives. -/
theorem hypercube_routing_progresses {s : ShardIdent} {src : AccountPrefix} (dst : AccountPrefix)
    (valid : s.Valid) (here : s.containsPrefix src = true) {fuel : Nat} (enough : 16 ≤ fuel) :
    (∃ cur next, performHypercubeRouting fuel src dst s 0 = some (.ok (cur, next)) ∧
      (s.containsPrefix dst = true → cur = 96 ∧ next = 96) ∧
      (s.containsPrefix dst = false → Leaves s src dst cur next)) ∧
    ∀ P : Partition, P.shards s → P.active dst.workchain →
      ∃ hops, Delivered fuel P dst hops s src := by
  constructor
  · cases away : s.containsPrefix dst with
    | true =>
      refine ⟨96, 96, ?_, fun _ => ⟨rfl, rfl⟩, nofun⟩
      unfold performHypercubeRouting
      simp [interpolatePrefix_zero, here, away, routingAddressBits]
    | false =>
      obtain ⟨cur, next, route, leaves⟩ := routes_out valid here away enough
      exact ⟨cur, next, route, nofun, fun _ => leaves⟩
  · intro P hs reachable
    exact ⟨96, delivered_of_matchedBits enough P reachable 96 s src hs here (by omega)⟩

/-- The half of workchain 0 whose accounts start with the given bit. -/
def half (right : Bool) : ShardIdent :=
  ⟨0#32, if right then 0xC000000000000000 else 0x4000000000000000⟩

theorem half_valid (right : Bool) : (half right).Valid where
  tagged := by cases right <;> decide
  whole := by cases right <;> decide

theorem half_contains {right : Bool} :
    (half right).containsPrefix p = true ↔ p.workchain = 0#32 ∧ p.prefix_.getLsbD 63 = right := by
  have tag : (half right).tag = 62 := by cases right <;> decide
  have top : (half right).shard.getLsbD 63 = right := by cases right <;> decide
  rw [ShardIdent.contains_iff (half_valid right).tagged, tag, eq_comm]
  constructor
  · rintro ⟨chain, agree⟩
    exact ⟨chain, (agree 63 (by omega)).trans top⟩
  · rintro ⟨chain, bit⟩
    refine ⟨chain, fun i hi => ?_⟩
    by_cases last : i = 63
    · rw [last, bit, top]
    · rw [BitVec.getLsbD_of_ge _ _ (by omega), BitVec.getLsbD_of_ge _ _ (by omega)]

/-- Workchain 0 split once. -/
def halves : Partition where
  active chain := chain = 0#32
  shards s := ∃ right, s = half right
  valid := by
    rintro _ ⟨right, rfl⟩
    exact half_valid right
  covers p active := ⟨half (p.prefix_.getLsbD 63), ⟨_, rfl⟩, half_contains.mpr ⟨active, rfl⟩⟩
  disjoint := by
    rintro _ _ p ⟨a, rfl⟩ ⟨b, rfl⟩ left right
    rw [← (half_contains.mp left).2, ← (half_contains.mp right).2]

theorem hypercube_routing_progresses_halves :
    (∃ cur next, performHypercubeRouting 16 ⟨0, 0x1⟩ ⟨0, 0xF000000000000000⟩ (half false) 0
        = some (.ok (cur, next)) ∧
      Leaves (half false) ⟨0, 0x1⟩ ⟨0, 0xF000000000000000⟩ cur next) ∧
    ∃ hops, Delivered 16 halves ⟨0, 0xF000000000000000⟩ hops (half false) ⟨0, 0x1⟩ := by
  have here : (half false).containsPrefix ⟨0, 0x1⟩ = true := by decide
  obtain ⟨⟨cur, next, route, -, leaves⟩, arrives⟩ :=
    hypercube_routing_progresses ⟨0, 0xF000000000000000⟩ (half_valid false) here (Nat.le_refl 16)
  exact ⟨⟨cur, next, route, leaves (by decide)⟩, arrives halves ⟨false, rfl⟩ rfl⟩

end Gton.Shard
