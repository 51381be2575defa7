import Gton.Collator.ProofEstimate

/-!
# Runs of the hash set

After any sequence of its operations the set knows what a map from hashes to flags knows, as long
as no table is doubled before it is allocated.
-/

namespace Gton.Collator.ProofSeenHashSet

open Gton.Lib
open List Probing

/-- `accountPathSizeEstimator.reset`, as far as the set goes. -/
def reset (s : ProofSeenHashSet) : ProofSeenHashSet :=
  ⟨s.slots.map fun _ => 0#64, (s.hashes.take 1).map fun _ => [], 0⟩

inductive Operation where
  | presize (expected : Int)
  | observe (hash : CellHash) (set clear : BitVec 64)
  | flags (hash : CellHash)
  | grow
  | reset
  deriving DecidableEq

/-- The set, and whether its table was made without a slot: doubling does that to a table that
is not allocated. -/
structure Table where
  seen : ProofSeenHashSet
  hollow : Bool

def Table.new : Table := ⟨empty, false⟩

/-- The map a run is replayed on. -/
abbrev FlagMap := CellHash → Option (BitVec 64)

/-- One operation. A table without a slot has none to read, so `observe` fails there. -/
def Table.run (t : Table) : Operation → Option Table
  | .presize expected => some (if t.hollow then t else { t with seen := t.seen.presize expected })
  | .observe hash set_ clear =>
    if t.hollow then none else (t.seen.observe hash set_ clear).map fun r => { t with seen := r.2 }
  | .flags _ => some t
  | .grow => t.seen.grow.map (⟨·, t.hollow || t.seen.slots.isEmpty⟩)
  | .reset => some { t with seen := t.seen.reset }

def FlagMap.replay (m : FlagMap) : Operation → FlagMap
  | .observe hash set_ clear =>
    Function.update m hash (some ((m hash).getD 0 &&& ~~~clear ||| set_))
  | .reset => fun _ => none
  | _ => m

/-- What is observed is among the hashes, with some of the three flags. -/
def Operation.Among (hashes : List CellHash) : Operation → Prop
  | .observe hash set_ _ => hash ∈ hashes ∧ set_ ≠ 0 ∧ set_.toNat < 8
  | _ => True

/-- Every table that is doubled is allocated. -/
def growsAllocated (t : Table) : List Operation → Bool
  | [] => true
  | op :: ops => (op ≠ .grow || !t.seen.slots.isEmpty) && (t.run op).all (growsAllocated · ops)

/-- A table that knows what a map of some of the hashes does. -/
structure Tracks (hashes : List CellHash) (t : Table) (m : FlagMap) : Prop where
  sound : t.seen.Sound
  solid : t.hollow = false
  flags : ∀ h, t.seen.flags h = (m h).getD 0
  keys : ∀ h, h ∈ t.seen.entries ↔ (m h).isSome = true
  known : t.seen.entries ⊆ hashes

variable {t : Table} {m : FlagMap} {op : Operation} {s : ProofSeenHashSet} {ops : List Operation}
  {hashes : List CellHash} {hash : CellHash} {set_ clear : BitVec 64}

theorem Sound.reset (h : Sound s) : Sound s.reset ∧ s.reset.entries = [] := by
  have none_ : s.reset.entries = [] := by
    unfold entries ProofSeenHashSet.reset
    cases s.hashes <;> rfl
  refine ⟨.of_unused ?_ ?_ none_ rfl ?_, none_⟩
  · simpa [ProofSeenHashSet.reset] using h.size
  · unfold ProofSeenHashSet.reset
    cases s.hashes with
    | nil => exact .inl rfl
    | cons => exact .inr ⟨[], [], rfl, by simp, by decide⟩
  · unfold ProofSeenHashSet.reset
    rw [map_const']
    exact taken_replicate rfl

namespace Tracks

theorem same (h : Tracks hashes t m) (sound : Sound s)
    (flags : ∀ other, s.flags other = t.seen.flags other) (kept : s.entries = t.seen.entries) :
    Tracks hashes ⟨s, false⟩ m :=
  ⟨sound, rfl, fun other => (flags other).trans (h.flags other), kept ▸ h.keys, kept ▸ h.known⟩

theorem grow (h : Tracks hashes t m) (slots : t.seen.slots ≠ []) :
    ∃ s, t.seen.grow = some s ∧ Tracks hashes ⟨s, false⟩ m := by
  obtain ⟨k, size⟩ := h.sound.size.resolve_left slots
  obtain ⟨slots, grown, sound, -, same⟩ := h.sound.grow size
  refine ⟨_, grown, h.same sound (fun other => ?_) rfl⟩
  apply h.sound.flags_eq sound
  · intro j fl slot held
    exact ⟨slot, same.mem_iff.mpr held.mem, held.entry, held.is⟩
  · exact fun absent => absent

section

variable (few : hashes.length < 2 ^ 29)
include few

/-- A new hash finds room: with it there are no more than all the hashes. -/
theorem small (h : Tracks hashes t m) (mem : hash ∈ hashes) (absent : hash ∉ t.seen.entries) :
    t.seen.count + 1 < 2 ^ 29 := by
  have nodup : (hash :: t.seen.entries).Nodup := nodup_cons.mpr ⟨absent, h.sound.nodup⟩
  have fits := (nodup.subperm (cons_subset.mpr ⟨mem, h.known⟩)).length_le
  rw [length_cons, h.sound.counted] at fits
  omega

theorem observe (h : Tracks hashes t m) (among : (Operation.observe hash set_ clear).Among hashes) :
    ∃ s, t.seen.observe hash set_ clear = some ((m hash).getD 0, s) ∧
      Tracks hashes ⟨s, false⟩ (m.replay (.observe hash set_ clear)) := by
  obtain ⟨mem, -, low⟩ := among
  obtain ⟨s, observed, sees⟩ := @observe_spec _ hash set_ clear h.sound (h.small few mem) low
  rw [h.flags] at observed
  have entries (other : CellHash) : other ∈ s.entries ↔ other = hash ∨ other ∈ t.seen.entries := by
    rw [sees.entries]
    split
    next present =>
      exact ⟨.inr, fun | .inl eq => eq ▸ present | .inr there => there⟩
    · rw [mem_append, mem_singleton, Or.comm]
  refine ⟨s, observed, sees.sound, rfl, fun other => ?_, fun other => ?_, fun other there => ?_⟩
  · rw [sees.flags, h.flags, h.flags, FlagMap.replay, Function.update_apply]
    split <;> rfl
  · rw [entries, h.keys, FlagMap.replay, Function.update_apply]
    by_cases eq : other = hash <;> simp [eq]
  · rcases (entries other).mp there with rfl | there
    · exact mem
    · exact h.known there

theorem run (h : Tracks hashes t m) (among : op.Among hashes)
    (grows : op = .grow → t.seen.slots ≠ []) :
    ∃ t', t.run op = some t' ∧ Tracks hashes t' (m.replay op) := by
  have solid := h.solid
  obtain ⟨s, hollow⟩ := t
  subst solid
  cases op with
  | presize expected =>
    obtain ⟨sound, entries, flags⟩ := h.sound.presize expected
    exact ⟨_, rfl, h.same sound flags entries⟩
  | observe hash set_ clear =>
    obtain ⟨s', observed, tracks⟩ := h.observe few among
    exact ⟨_, congrArg (Option.map _) observed, tracks⟩
  | flags => exact ⟨_, rfl, h⟩
  | grow =>
    obtain ⟨s', grown, tracks⟩ := h.grow (grows rfl)
    refine ⟨_, ?_, tracks⟩
    simpa [Table.run, grown] using grows rfl
  | reset =>
    obtain ⟨sound, none_⟩ := h.sound.reset
    refine ⟨_, rfl, sound, rfl, fun other => sound.flags_absent ?_, fun other => ?_, ?_⟩ <;>
      simp [none_, FlagMap.replay]

theorem runs (h : Tracks hashes t m) (among : ∀ op ∈ ops, op.Among hashes)
    (grows : growsAllocated t ops = true) :
    ∃ t', ops.foldlM Table.run t = some t' ∧ Tracks hashes t' (ops.foldl FlagMap.replay m) := by
  induction ops generalizing t m with
  | nil => exact ⟨_, rfl, h⟩
  | cons op ops ih =>
    rw [forall_mem_cons] at among
    rw [growsAllocated, Bool.and_eq_true] at grows
    obtain ⟨t', ran, step⟩ := h.run few among.1 (by simpa [imp_iff_not_or] using grows.1)
    rw [ran] at grows
    obtain ⟨t'', rest, tracks⟩ := ih step among.2 grows.2
    exact ⟨t'', by rw [foldlM_cons, ran]; exact rest, tracks⟩

end

end Tracks

/-- After a run over fewer than 2^29 hashes the set knows what the map does, the next `observe`
reports what the map held, and the set counts the keys of the map. -/
theorem runs_like_map (few : hashes.length < 2 ^ 29) (among : ∀ op ∈ ops, op.Among hashes)
    (grows : growsAllocated .new ops = true) :
    let m := ops.foldl FlagMap.replay fun _ => none
    ∃ t, ops.foldlM Table.run .new = some t ∧ (∀ hash, t.seen.flags hash = (m hash).getD 0) ∧
      (∀ hash set_ clear, (Operation.observe hash set_ clear).Among hashes →
        ∃ s, t.seen.observe hash set_ clear = some ((m hash).getD 0, s)) ∧
      ∃ keys : List CellHash, keys.Nodup ∧ t.seen.count = keys.length ∧
        ∀ hash, hash ∈ keys ↔ (m hash).isSome = true := by
  have start : Tracks hashes .new fun _ => none :=
    ⟨sound_empty, rfl, fun _ => rfl, fun _ => ⟨nofun, nofun⟩, nofun⟩
  obtain ⟨t, ran, tracks⟩ := start.runs few among grows
  refine ⟨t, ran, tracks.flags, fun hash set_ clear among => ?_, t.seen.entries,
    tracks.sound.nodup, tracks.sound.counted.symm, tracks.keys⟩
  obtain ⟨s, observed, -⟩ := tracks.observe few among
  exact ⟨s, observed⟩

/-- Two hashes with one fingerprint, after a reset. -/
def collidingRun : List Operation :=
  [.observe (hashEndingIn 0) 1 0, .reset, .grow, .observe (hashEndingIn 0) 2 0,
    .observe (hashEndingIn 1) 4 0]

theorem runs_like_map_colliding : ∃ t, collidingRun.foldlM Table.run .new = some t ∧
    t.seen.flags (hashEndingIn 0) = 2 ∧ t.seen.flags (hashEndingIn 1) = 4 := by
  obtain ⟨t, ran, flags, -⟩ := @runs_like_map collidingRun [hashEndingIn 0, hashEndingIn 1]
    (by decide) (by simp [collidingRun, Operation.Among]) (by decide +kernel)
  exact ⟨t, ran, flags _, flags _⟩

/-- A table doubled before it is allocated has no slot to look at. -/
theorem grow_before_observe :
    [Operation.grow, .observe (hashEndingIn 0) 1 0].foldlM Table.run .new = none := by
  decide +kernel

end Gton.Collator.ProofSeenHashSet
