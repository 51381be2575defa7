import Gton.Lib.Chunks
import Gton.Lib.Probing
import Mathlib.Data.List.Nodup
import Mathlib.Data.List.Perm.Subperm
import Mathlib.Data.Nat.Bitwise

/-!
# The hashes the proof estimate has seen

An open-addressed table from cell hashes to three flags. A slot is one word: four bytes of the
hash, the number of the entry and the flags. The hashes themselves are kept in chunks, in the
order they came.
-/

namespace Gton.Collator

open Gton.Lib

/-- `cell.Hash`. -/
abbrev CellHash := Vector UInt8 32

open List Probing

def proofSeenLoaded : BitVec 64 := 1#64

def proofSeenBoundary : BitVec 64 := 2#64

def proofSeenSelected : BitVec 64 := 4#64

def proofSeenFlagBits : Nat := 3

def proofSeenFlagMask : BitVec 64 := 1#64 <<< proofSeenFlagBits - 1

def proofSeenChunkBits : Nat := 10

def proofCellFingerprint (hash : CellHash) : BitVec 32 :=
  hash[0].toBitVec.setWidth 32 ||| hash[1].toBitVec.setWidth 32 <<< 8 |||
    hash[2].toBitVec.setWidth 32 <<< 16 ||| hash[3].toBitVec.setWidth 32 <<< 24

structure ProofSeenHashSet where
  slots : List (BitVec 64)
  hashes : List (List CellHash)
  count : Nat

namespace ProofSeenHashSet

def empty : ProofSeenHashSet := ⟨[], [], 0⟩

/-! ## Slots -/

def slotFingerprint (slot : BitVec 64) : BitVec 32 := (slot >>> 32).setWidth 32

/-- The number of an entry, counted from 1. -/
def slotCount (slot : BitVec 64) : BitVec 32 := slot.setWidth 32 >>> proofSeenFlagBits

def slotFree (slot : BitVec 64) : Bool := slot == 0#64

def packSlot (fingerprint : BitVec 32) (count : Nat) (flags : BitVec 64) : BitVec 64 :=
  fingerprint.setWidth 64 <<< 32 ||| BitVec.ofNat 64 count <<< proofSeenFlagBits ||| flags

/-- The slot with other flags. -/
def reflag (slot flags : BitVec 64) : BitVec 64 := slot &&& ~~~proofSeenFlagMask ||| flags

/-! ## The table -/

def hashAt (s : ProofSeenHashSet) (index : BitVec 32) : Option CellHash :=
  s.hashes[(index >>> proofSeenChunkBits).toNat]?.bind fun chunk =>
    chunk[(index &&& (1#32 <<< proofSeenChunkBits - 1)).toNat]?

def appendHash (s : ProofSeenHashSet) (hash : CellHash) : ProofSeenHashSet :=
  { s with
    hashes := Chunks.push (1 <<< proofSeenChunkBits) s.hashes hash
    count := s.count + 1 }

/-- The slot belongs to the hash. -/
def hits (s : ProofSeenHashSet) (hash : CellHash) (slot : BitVec 64) : Bool :=
  slotFingerprint slot == proofCellFingerprint hash && s.hashAt (slotCount slot - 1) == some hash

/-- The probing loops: from a position on, with the mask of the table, until a slot stops them. -/
def walk (slots : List (BitVec 64)) (stop : BitVec 64 → Bool) :
    Nat → Nat → Option (Nat × BitVec 64)
  | 0, _ => none
  | fuel + 1, pos =>
    match slots[pos]? with
    | none => none
    | some slot =>
      if stop slot then some (pos, slot)
      else walk slots stop fuel ((pos + 1) &&& (slots.length - 1))

/-- A loop from the home of a fingerprint; it never needs more steps than there are slots. -/
def walkFrom (slots : List (BitVec 64)) (stop : BitVec 64 → Bool) (fingerprint : BitVec 32) :
    Option (Nat × BitVec 64) :=
  walk slots stop slots.length (fingerprint.toNat &&& (slots.length - 1))

def grow (s : ProofSeenHashSet) : Option ProofSeenHashSet := do
  let slots ← s.slots.foldlM (fun slots slot =>
    if slotFree slot then some slots
    else (walkFrom slots slotFree (slotFingerprint slot)).map fun found => slots.set found.1 slot)
    (List.replicate (2 * s.slots.length) 0#64)
  return { s with slots := slots }

/-- Where a new hash goes: the table is doubled first if it would be more than half full. -/
def makeRoom (s : ProofSeenHashSet) (hash : CellHash) (pos : Nat) :
    Option (ProofSeenHashSet × Nat) :=
  if (s.count + 1) * 2 > s.slots.length then do
    let s ← s.grow
    let found ← walkFrom s.slots slotFree (proofCellFingerprint hash)
    return (s, found.1)
  else some (s, pos)

/-- The first use allocates the table. -/
def allocated (s : ProofSeenHashSet) : ProofSeenHashSet :=
  if s.slots.isEmpty then { s with slots := List.replicate 64 0#64 } else s

/-- `observe`; none stands for a loop that does not end. -/
def observe (s : ProofSeenHashSet) (hash : CellHash) (set clear : BitVec 64) :
    Option (BitVec 64 × ProofSeenHashSet) := do
  let s := s.allocated
  let (pos, slot) ← walkFrom s.slots (fun slot => slotFree slot || s.hits hash slot)
    (proofCellFingerprint hash)
  if !slotFree slot then
    let prior := slot &&& proofSeenFlagMask
    let next := prior &&& ~~~clear ||| set
    let s := if next ≠ prior then { s with slots := s.slots.set pos (reflag slot next) } else s
    return (prior, s)
  else
    let (s, pos) ← s.makeRoom hash pos
    let s := s.appendHash hash
    return (0#64, { s with
      slots := s.slots.set pos (packSlot (proofCellFingerprint hash) s.count set) })

def flags (s : ProofSeenHashSet) (hash : CellHash) : BitVec 64 :=
  match walkFrom s.slots (fun slot => slotFree slot || s.hits hash slot)
    (proofCellFingerprint hash) with
  | none => 0#64
  | some (_, slot) => if slotFree slot then 0#64 else slot &&& proofSeenFlagMask

def emitted (s : ProofSeenHashSet) (hash : CellHash) : Bool :=
  s.flags hash &&& (proofSeenLoaded ||| proofSeenSelected) != 0#64

def proofSeenMaxPresizedCells : Nat := 1 <<< 20

/-- The doubling loop of `presize`. -/
def presizedSlots (expected : Nat) : Nat → Nat → Nat
  | 0, slots => slots
  | fuel + 1, slots =>
    if slots < 2 * expected then presizedSlots expected fuel (2 * slots) else slots

def presize (s : ProofSeenHashSet) (expected : Int) : ProofSeenHashSet :=
  if expected ≤ 0 || !s.slots.isEmpty then s
  else
    let expected := min expected.toNat proofSeenMaxPresizedCells
    { s with slots := List.replicate (presizedSlots expected (2 * expected) 64) 0#64 }

/-! ## Words -/

section Words

variable {fingerprint : BitVec 32} {n index : Nat} {slot flags : BitVec 64}

theorem proofSeenFlagMask_eq : proofSeenFlagMask = BitVec.ofNat 64 (2 ^ 3 - 1) := by decide

theorem toNat_slotFingerprint : (slotFingerprint slot).toNat = slot.toNat / 2 ^ 32 := by
  simp only [slotFingerprint, BitVec.toNat_setWidth, BitVec.toNat_ushiftRight,
    Nat.shiftRight_eq_div_pow]
  omega

theorem toNat_slotCount : (slotCount slot).toNat = slot.toNat % 2 ^ 32 / 8 := by
  simp only [slotCount, proofSeenFlagBits, BitVec.toNat_setWidth, BitVec.toNat_ushiftRight,
    Nat.shiftRight_eq_div_pow]

theorem toNat_and_flagMask : (slot &&& proofSeenFlagMask).toNat = slot.toNat % 8 := by
  exact Nat.and_two_pow_sub_one_eq_mod slot.toNat 3

theorem toNat_packSlot (hn : n < 2 ^ 29) (hf : flags.toNat < 8) :
    (packSlot fingerprint n flags).toNat = fingerprint.toNat * 2 ^ 32 + n * 8 + flags.toNat := by
  have low : n <<< 3 + flags.toNat < 2 ^ 32 := by
    omega
  have high : fingerprint.toNat <<< 32 % 2 ^ 64 = fingerprint.toNat <<< 32 := by
    rw [Nat.shiftLeft_eq]
    omega
  have middle : n <<< 3 % 2 ^ 64 = n <<< 3 := by
    omega
  have small : n % 2 ^ 64 = n ∧ fingerprint.toNat % 2 ^ 64 = fingerprint.toNat := by omega
  simp only [packSlot, proofSeenFlagBits, BitVec.toNat_or, BitVec.toNat_shiftLeft,
    BitVec.toNat_setWidth, BitVec.toNat_ofNat, high, middle, small]
  have flagsLow : flags.toNat < 2 ^ 3 := hf
  rw [Nat.or_assoc, ← Nat.shiftLeft_add_eq_or_of_lt flagsLow, ← Nat.shiftLeft_add_eq_or_of_lt low,
    Nat.shiftLeft_eq, Nat.shiftLeft_eq]
  omega

theorem and_not_flagMask : slot &&& ~~~proofSeenFlagMask = (slot >>> 3) <<< 3 := by
  apply BitVec.eq_of_getLsbD_eq
  intro i hi
  have mask : proofSeenFlagMask.getLsbD i = decide (i < 3) := by
    rw [proofSeenFlagMask_eq, BitVec.getLsbD_ofNat, Nat.testBit_two_pow_sub_one]
    simp
    omega
  rw [BitVec.getLsbD_and, BitVec.getLsbD_not, mask, BitVec.getLsbD_shiftLeft,
    BitVec.getLsbD_ushiftRight]
  by_cases low : i < 3
  · simp [low]
  · simp [low, hi, show 3 + (i - 3) = i by omega]

theorem toNat_reflag (hf : flags.toNat < 8) :
    (reflag slot flags).toNat = slot.toNat / 8 * 8 + flags.toNat := by
  have high : (slot.toNat / 2 ^ 3) <<< 3 % 2 ^ 64 = (slot.toNat / 2 ^ 3) <<< 3 := by
    rw [Nat.shiftLeft_eq]
    omega
  have flagsLow : flags.toNat < 2 ^ 3 := hf
  rw [reflag, and_not_flagMask, BitVec.toNat_or, BitVec.toNat_shiftLeft, BitVec.toNat_ushiftRight,
    Nat.shiftRight_eq_div_pow, high, ← Nat.shiftLeft_add_eq_or_of_lt flagsLow, Nat.shiftLeft_eq]
  rfl

/-- A word that stands for a numbered entry. -/
structure SlotOf (fingerprint : BitVec 32) (index : Nat) (flags slot : BitVec 64) : Prop where
  fingerprint : slotFingerprint slot = fingerprint
  count : (slotCount slot).toNat = index + 1
  flags : slot &&& proofSeenFlagMask = flags

theorem slotOf_packSlot (room : index + 1 < 2 ^ 29) (hf : flags.toNat < 8) :
    SlotOf fingerprint index flags (packSlot fingerprint (index + 1) flags) := by
  have word : (packSlot fingerprint (index + 1) flags).toNat =
      fingerprint.toNat * 2 ^ 32 + (index + 1) * 8 + flags.toNat := toNat_packSlot room hf
  refine ⟨?_, ?_, ?_⟩
  · apply BitVec.eq_of_toNat_eq
    rw [toNat_slotFingerprint, word]
    omega
  · rw [toNat_slotCount, word]
    omega
  · apply BitVec.eq_of_toNat_eq
    rw [toNat_and_flagMask, word]
    omega

theorem SlotOf.reflag {old : BitVec 64} (h : SlotOf fingerprint index old slot)
    (hf : flags.toNat < 8) : SlotOf fingerprint index flags (reflag slot flags) := by
  have word : (ProofSeenHashSet.reflag slot flags).toNat = slot.toNat / 8 * 8 + flags.toNat :=
    toNat_reflag hf
  have count := h.count
  rw [toNat_slotCount] at count
  refine ⟨?_, ?_, ?_⟩
  · apply BitVec.eq_of_toNat_eq
    rw [← h.fingerprint, toNat_slotFingerprint, toNat_slotFingerprint, word]
    omega
  · rw [toNat_slotCount, word]
    omega
  · apply BitVec.eq_of_toNat_eq
    rw [toNat_and_flagMask, word]
    omega

theorem SlotOf.used (h : SlotOf fingerprint index flags slot) : slotFree slot = false := by
  have count := h.count
  unfold slotFree
  apply Bool.eq_false_iff.mpr
  intro zero
  rw [beq_iff_eq] at zero
  rw [toNat_slotCount, zero] at count
  simp at count

theorem SlotOf.flags_lt (h : SlotOf fingerprint index flags slot) : flags.toNat < 8 := by
  rw [← h.flags, toNat_and_flagMask]
  omega

end Words

/-! ## Walks -/

variable {k : Nat} {slots : List (BitVec 64)} {stop : BitVec 64 → Bool}

theorem and_mask {x n : Nat} (size : n = 2 ^ k) : x &&& (n - 1) = x % n := by
  rw [size]
  exact Nat.and_two_pow_sub_one_eq_mod x k

theorem walk_eq_probe (size : slots.length = 2 ^ k) {fuel : Nat} :
    ∀ {pos : Nat}, walk slots stop fuel pos = Probing.probe slots stop fuel pos := by
  induction fuel with
  | zero =>
    intro pos
    rfl
  | succ fuel ih =>
    intro pos
    simp only [walk, Probing.probe, and_mask size, ih]
    cases slots[pos]? <;> rfl

theorem walkFrom_eq_probe (size : slots.length = 2 ^ k) (fingerprint : BitVec 32) :
    walkFrom slots stop fingerprint =
      Probing.probe slots stop slots.length (fingerprint.toNat % slots.length) := by
  unfold walkFrom
  rw [walk_eq_probe size, and_mask size]

/-- Where the search for a slot starts. -/
def slotHome (slot : BitVec 64) : Nat := (slotFingerprint slot).toNat

/-! ## What the table holds -/

/-- The hashes in the order they came. -/
def entries (s : ProofSeenHashSet) : List CellHash := s.hashes.flatten

/-- What keeps a table searchable: it is at most half full, every hash has one slot, and every
slot can be reached from its home. -/
structure Sound (s : ProofSeenHashSet) : Prop where
  size : s.slots = [] ∨ ∃ k, s.slots.length = 2 ^ k
  room : 2 * s.count ≤ s.slots.length
  small : s.count < 2 ^ 29
  packed : Chunks.Packed 1024 s.hashes
  counted : s.entries.length = s.count
  nodup : s.entries.Nodup
  settled : Probing.Settled slotFree slotHome s.slots
  slotted : ∀ {i : Nat} {hash : CellHash}, s.entries[i]? = some hash →
    ∃ slot ∈ Probing.taken slotFree s.slots, ∃ flags,
      SlotOf (proofCellFingerprint hash) i flags slot
  owned : ∀ slot ∈ Probing.taken slotFree s.slots, ∃ i hash flags, s.entries[i]? = some hash ∧
    SlotOf (proofCellFingerprint hash) i flags slot
  once : ((Probing.taken slotFree s.slots).map slotCount).Nodup

section Sound

variable {s : ProofSeenHashSet} {hash : CellHash} {slot fl set clear : BitVec 64} {i : Nat}

theorem hashAt_eq (packed : Chunks.Packed 1024 s.hashes) (index : BitVec 32) :
    s.hashAt index = s.entries[index.toNat]? := by
  have high : (index >>> proofSeenChunkBits).toNat = index.toNat / 1024 := by
    rw [BitVec.toNat_ushiftRight, Nat.shiftRight_eq_div_pow]
    rfl
  have low : (index &&& (1#32 <<< proofSeenChunkBits - 1)).toNat = index.toNat % 1024 := by
    exact Nat.and_two_pow_sub_one_eq_mod index.toNat 10
  unfold hashAt entries
  rw [high, low]
  exact packed.getElem? (by decide) index.toNat

theorem SlotOf.hashAt (packed : Chunks.Packed 1024 s.hashes) {fingerprint : BitVec 32}
    (h : SlotOf fingerprint i fl slot) : s.hashAt (slotCount slot - 1) = s.entries[i]? := by
  rw [hashAt_eq packed, BitVec.toNat_sub, h.count]
  have lt := (slotCount slot).isLt
  rw [h.count] at lt
  congr 1
  change (2 ^ 32 - 1 + (i + 1)) % 2 ^ 32 = i
  omega

section

variable (h : Sound s)
include h

theorem Sound.hits_used (hit : s.hits hash slot = true) : slotFree slot = false := by
  apply Bool.eq_false_iff.mpr
  intro zero
  rw [slotFree, beq_iff_eq] at zero
  unfold hits at hit
  rw [Bool.and_eq_true, beq_iff_eq, beq_iff_eq, zero, hashAt_eq h.packed] at hit
  have past : s.entries[(slotCount 0#64 - 1).toNat]? = none := by
    apply getElem?_eq_none
    have small := h.small
    rw [h.counted]
    change s.count ≤ 2 ^ 32 - 1
    omega
  rw [past] at hit
  cases hit.2

/-- The slot of a hash, with the number of its entry and its flags. -/
structure Holds (s : ProofSeenHashSet) (hash : CellHash) (i : Nat) (fl slot : BitVec 64) :
    Prop where
  mem : slot ∈ Probing.taken slotFree s.slots
  entry : s.entries[i]? = some hash
  is : SlotOf (proofCellFingerprint hash) i fl slot

theorem Sound.exists_holds (present : hash ∈ s.entries) : ∃ i fl slot, Holds s hash i fl slot := by
  obtain ⟨i, entry⟩ := mem_iff_getElem?.mp present
  obtain ⟨slot, mem, fl, is⟩ := h.slotted entry
  exact ⟨i, fl, slot, mem, entry, is⟩

theorem Sound.hits_iff (mem : slot ∈ taken slotFree s.slots) :
    s.hits hash slot = true ↔ ∃ i fl, Holds s hash i fl slot := by
  obtain ⟨i, owner, flags, entry, is⟩ := h.owned slot mem
  unfold hits
  rw [Bool.and_eq_true, beq_iff_eq, beq_iff_eq, is.hashAt h.packed, entry, Option.some.injEq]
  constructor
  · rintro ⟨-, rfl⟩
    exact ⟨i, flags, mem, entry, is⟩
  · rintro ⟨j, flags', -, entry', is'⟩
    have same : j = i := by
      have count := is'.count
      rw [is.count] at count
      omega
    rw [same, entry, Option.some.injEq] at entry'
    exact ⟨by rw [← entry', is.fingerprint], entry'⟩

theorem Sound.slot_unique {other fl' : BitVec 64} {j : Nat} (held : Holds s hash i fl slot)
    (held' : Holds s hash j fl' other) : other = slot := by
  obtain ⟨li, here⟩ := List.getElem?_eq_some_iff.mp held.entry
  obtain ⟨lj, there⟩ := List.getElem?_eq_some_iff.mp held'.entry
  have same : j = i := (List.Nodup.getElem_inj_iff h.nodup).mp (there.trans here.symm)
  apply inj_on_of_nodup_map h.once held'.mem held.mem
  apply BitVec.eq_of_toNat_eq
  rw [held.is.count, held'.is.count, same]

theorem Sound.walk_present (held : Holds s hash i fl slot) :
    ∃ pos, walkFrom s.slots (fun slot => slotFree slot || s.hits hash slot)
      (proofCellFingerprint hash) = some (pos, slot) ∧ s.slots[pos]? = some slot := by
  obtain ⟨inside, used⟩ := mem_taken.mp held.mem
  obtain ⟨p, found⟩ := mem_iff_getElem?.mp inside
  obtain empty | ⟨k, size⟩ := h.size
  · rw [empty] at inside
    cases inside
  · have hit : s.hits hash slot = true := (h.hits_iff held.mem).mpr ⟨i, fl, held⟩
    have starts : slotHome slot % s.slots.length =
        (proofCellFingerprint hash).toNat % s.slots.length := by
      unfold slotHome
      rw [held.is.fingerprint]
    obtain ⟨q, other, ends, there, again⟩ := probe_hit h.settled found hit used starts
    obtain ⟨j, fl', held'⟩ := (h.hits_iff (mem_taken.mpr
      ⟨mem_of_getElem? there, h.hits_used again⟩)).mp again
    rw [h.slot_unique held held'] at ends there
    refine ⟨q, ?_, there⟩
    rw [walkFrom_eq_probe size]
    exact ends

theorem Sound.taken_le : (taken slotFree s.slots).length ≤ s.count := by
  rw [← h.counted, ← length_map slotCount]
  have inside : ∀ c ∈ (taken slotFree s.slots).map slotCount,
      c ∈ (List.range s.entries.length).map fun i => BitVec.ofNat 32 (i + 1) := by
    intro c mem
    obtain ⟨slot, used, rfl⟩ := mem_map.mp mem
    obtain ⟨i, owner, fl, entry, is⟩ := h.owned slot used
    obtain ⟨lt, -⟩ := List.getElem?_eq_some_iff.mp entry
    refine mem_map.mpr ⟨i, mem_range.mpr lt, ?_⟩
    apply BitVec.eq_of_toNat_eq
    have bound := (slotCount slot).isLt
    rw [is.count] at bound ⊢
    rw [BitVec.toNat_ofNat]
    omega
  have le := (subperm_of_subset h.once inside).length_le
  simpa using le

theorem Sound.walk_absent (absent : hash ∉ s.entries) (size : s.slots.length = 2 ^ k) :
    ∃ pos slot, walkFrom s.slots (fun slot => slotFree slot || s.hits hash slot)
      (proofCellFingerprint hash) = some (pos, slot) ∧ s.slots[pos]? = some slot ∧
      slotFree slot = true ∧ Reaches slotFree s.slots
        ((proofCellFingerprint hash).toNat % s.slots.length) pos := by
  have pos : 0 < s.slots.length := by
    rw [size]
    exact Nat.two_pow_pos k
  have misses : ∀ slot ∈ s.slots, s.hits hash slot = false := by
    intro slot mem
    apply Bool.eq_false_iff.mpr
    intro hit
    have used := h.hits_used hit
    obtain ⟨i, fl, held⟩ := (h.hits_iff (mem_taken.mpr ⟨mem, used⟩)).mp hit
    exact absent (mem_of_getElem? held.entry)
  have room : (taken slotFree s.slots).length < s.slots.length := by
    have half := h.room
    have few := h.taken_le
    omega
  obtain ⟨q, slot, ends, found, free, reaches⟩ := probe_miss misses room
    (Nat.mod_lt _ pos)
  refine ⟨q, slot, ?_, found, free, reaches⟩
  rw [walkFrom_eq_probe size]
  exact ends

theorem Sound.flags_present (held : Holds s hash i fl slot) : s.flags hash = fl := by
  obtain ⟨pos, ends, -⟩ := h.walk_present held
  unfold flags
  rw [ends]
  simp only [held.is.used, Bool.false_eq_true, if_false]
  exact held.is.flags

theorem Sound.flags_absent (absent : hash ∉ s.entries) : s.flags hash = 0#64 := by
  unfold flags
  rcases h.size with empty | ⟨k, size⟩
  · rw [empty]
    rfl
  · obtain ⟨pos, slot, ends, -, free, -⟩ := h.walk_absent absent size
    rw [ends]
    simp [free]

/-- Two tables with one slot for a hash, or none of them with any, know the same about it. -/
theorem Sound.flags_eq {s' : ProofSeenHashSet} (h' : Sound s')
    (kept : ∀ {i fl slot}, Holds s hash i fl slot → ∃ slot', Holds s' hash i fl slot')
    (none_ : hash ∉ s.entries → hash ∉ s'.entries) : s'.flags hash = s.flags hash := by
  by_cases present : hash ∈ s.entries
  · obtain ⟨i, fl, slot, held⟩ := h.exists_holds present
    obtain ⟨slot', held'⟩ := kept held
    rw [h.flags_present held, h'.flags_present held']
  · rw [h.flags_absent present, h'.flags_absent (none_ present)]

/-! ## Growing -/

omit h in
theorem growStep_eq (size : slots.length = 2 ^ k) :
    (walkFrom slots slotFree (slotFingerprint slot)).map (fun found => slots.set found.1 slot) =
      place slotFree slotHome slots slot := by
  rw [walkFrom_eq_probe size]
  rfl

omit h in
theorem growLoop_eq {old : List (BitVec 64)} : ∀ {slots : List (BitVec 64)}, slots.length = 2 ^ k →
    old.foldlM (fun slots slot => if slotFree slot then some slots
      else (walkFrom slots slotFree (slotFingerprint slot)).map fun found =>
        slots.set found.1 slot) slots = rehash slotFree slotHome old slots := by
  unfold rehash
  induction old with
  | nil =>
    intro slots _
    rfl
  | cons slot old ih =>
    intro slots size
    rw [foldlM_cons, foldlM_cons, growStep_eq size]
    split
    · exact ih size
    · unfold place
      cases probe slots slotFree slots.length (slotHome slot % slots.length) with
      | none => rfl
      | some found =>
        apply ih
        rw [length_set, size]

theorem Sound.grow (size : s.slots.length = 2 ^ k) :
    ∃ slots, s.grow = some { s with slots := slots } ∧ Sound { s with slots := slots } ∧
      slots.length = 2 ^ (k + 1) ∧
      (taken slotFree slots).Perm (taken slotFree s.slots) := by
  have free : slotFree 0#64 = true := rfl
  have double : (List.replicate (2 * s.slots.length) 0#64).length = 2 ^ (k + 1) := by
    rw [length_replicate, size]
    omega
  have none_ : taken slotFree (List.replicate (2 * s.slots.length) 0#64) = [] :=
    taken_replicate free
  have few := h.taken_le
  have room := h.room
  have pos := Nat.two_pow_pos k
  obtain ⟨slots, rehashed, settled, length, same⟩ := @rehash_spec _ slotFree slotHome
    s.slots (List.replicate (2 * s.slots.length) 0#64) (settled_replicate free) (by
      rw [none_, length_nil, length_replicate]
      omega)
  rw [none_, append_nil] at same
  rw [double] at length
  refine ⟨slots, ?_, ?_, length, same⟩
  · unfold ProofSeenHashSet.grow
    rw [growLoop_eq double, rehashed]
    rfl
  · exact {
      size := .inr ⟨k + 1, length⟩
      room := by
        change 2 * s.count ≤ slots.length
        omega
      small := h.small
      packed := h.packed
      counted := h.counted
      nodup := h.nodup
      settled := settled
      slotted := by
        intro i hash entry
        obtain ⟨slot, mem, is⟩ := h.slotted entry
        exact ⟨slot, same.mem_iff.mpr mem, is⟩
      owned := fun slot mem => h.owned slot (same.mem_iff.mp mem)
      once := (same.map slotCount).nodup_iff.mpr h.once }

/-- A table with a free place for one more hash. -/
structure Ready (s : ProofSeenHashSet) (hash : CellHash) (pos : Nat) : Prop where
  sound : Sound s
  absent : hash ∉ s.entries
  room : 2 * (s.count + 1) ≤ s.slots.length
  free : ∃ slot, s.slots[pos]? = some slot ∧ slotFree slot = true
  reaches : Probing.Reaches slotFree s.slots
    ((proofCellFingerprint hash).toNat % s.slots.length) pos

theorem Sound.makeRoom (absent : hash ∉ s.entries) {pos : Nat}
    (size : s.slots.length = 2 ^ k) (found : s.slots[pos]? = some slot)
    (free : slotFree slot = true)
    (reaches : Reaches slotFree s.slots ((proofCellFingerprint hash).toNat % s.slots.length) pos) :
    ∃ s' pos', s.makeRoom hash pos = some (s', pos') ∧ Ready s' hash pos' ∧
      s'.hashes = s.hashes ∧ s'.count = s.count ∧
      (taken slotFree s'.slots).Perm (taken slotFree s.slots) := by
  unfold ProofSeenHashSet.makeRoom
  split
  · obtain ⟨slots, grown, sound, length, same⟩ := h.grow size
    have few := sound.taken_le
    have half := h.room
    have pos := Nat.two_pow_pos k
    have room : (taken slotFree slots).length < slots.length := by
      change (taken slotFree slots).length ≤ s.count at few
      omega
    have search := @probe_miss _ slotFree slots fun _ => false
    obtain ⟨q, slot, ends, there, isFree, path⟩ := search (fun _ _ => rfl) room
      (Nat.mod_lt (proofCellFingerprint hash).toNat (by omega))
    simp only [Bool.or_false] at ends
    refine ⟨_, q, ?_, ⟨sound, absent, ?_, ⟨slot, there, isFree⟩, path⟩, rfl, rfl, same⟩
    · rw [grown]
      simp only [Option.bind_eq_bind, Option.bind_some, walkFrom_eq_probe length, ends]
      rfl
    · change 2 * (s.count + 1) ≤ slots.length
      omega
  · exact ⟨s, pos, rfl, ⟨h, absent, by omega, ⟨slot, found, free⟩, reaches⟩, rfl, rfl,
      List.Perm.refl _⟩

end

/-! ## Writing -/

theorem entries_appendHash : (s.appendHash hash).entries = s.entries ++ [hash] :=
  Chunks.flatten_push

/-- The table with one more hash. -/
def inserted (s : ProofSeenHashSet) (hash : CellHash) (pos : Nat) (set : BitVec 64) :
    ProofSeenHashSet :=
  { s.appendHash hash with
    slots := s.slots.set pos (packSlot (proofCellFingerprint hash) (s.count + 1) set) }

section Inserted

variable {pos : Nat} {set : BitVec 64} (h : Ready s hash pos) (small : s.count + 1 < 2 ^ 29)
  (low : set.toNat < 8)
include h small low

theorem Ready.taken : (Probing.taken slotFree (s.inserted hash pos set).slots).Perm
    (packSlot (proofCellFingerprint hash) (s.count + 1) set ::
      Probing.taken slotFree s.slots) := by
  obtain ⟨slot, found, free⟩ := h.free
  exact taken_set_free found free (slotOf_packSlot small low).used

theorem Ready.inserted : Sound (s.inserted hash pos set) := by
  have is : SlotOf (proofCellFingerprint hash) s.count set
      (packSlot (proofCellFingerprint hash) (s.count + 1) set) := slotOf_packSlot small low
  have taken := h.taken small low
  have entries : (s.inserted hash pos set).entries = s.entries ++ [hash] := entries_appendHash
  have counted : s.entries.length = s.count := h.sound.counted
  refine ⟨?_, ?_, small, ?_, ?_, ?_, ?_, ?_, ?_, ?_⟩
  · rcases h.sound.size with none_ | ⟨k, size⟩
    · have room := h.room
      rw [none_] at room
      cases room
    · refine .inr ⟨k, ?_⟩
      change (s.slots.set _ _).length = _
      rw [length_set, size]
  · change 2 * (s.count + 1) ≤ (s.slots.set _ _).length
    rw [length_set]
    exact h.room
  · exact h.sound.packed.push (by decide)
  · rw [entries, length_append, counted]
    rfl
  · rw [entries]
    refine List.Nodup.append h.sound.nodup (nodup_singleton hash) ?_
    simpa using h.absent
  · apply Settled.set h.sound.settled is.used
    unfold slotHome
    rw [is.fingerprint]
    exact h.reaches
  · intro i other entry
    rw [entries] at entry
    by_cases old : i < s.entries.length
    · rw [getElem?_append_left old] at entry
      obtain ⟨slot, mem, flags⟩ := h.sound.slotted entry
      exact ⟨slot, taken.mem_iff.mpr (mem_cons_of_mem _ mem), flags⟩
    · rw [getElem?_append_right (by omega)] at entry
      obtain ⟨lt, same⟩ := List.getElem?_eq_some_iff.mp entry
      rw [length_singleton] at lt
      have here : i = s.count := by omega
      rw [getElem_singleton] at same
      subst here same
      exact ⟨_, taken.mem_iff.mpr mem_cons_self, set, is⟩
  · intro slot mem
    rcases mem_cons.mp (taken.mem_iff.mp mem) with rfl | old
    · refine ⟨s.count, hash, set, ?_, is⟩
      rw [entries, ← counted]
      simp
    · obtain ⟨i, owner, flags, entry, was⟩ := h.sound.owned slot old
      obtain ⟨lt, -⟩ := List.getElem?_eq_some_iff.mp entry
      refine ⟨i, owner, flags, ?_, was⟩
      rw [entries, getElem?_append_left lt]
      exact entry
  · refine (taken.map slotCount).nodup_iff.mpr ?_
    rw [map_cons, nodup_cons]
    refine ⟨?_, h.sound.once⟩
    intro again
    obtain ⟨slot, old, same⟩ := mem_map.mp again
    obtain ⟨i, owner, flags, entry, was⟩ := h.sound.owned slot old
    obtain ⟨lt, -⟩ := List.getElem?_eq_some_iff.mp entry
    have counts := congrArg BitVec.toNat same
    rw [was.count, is.count] at counts
    omega

theorem Ready.flags_inserted (other : CellHash) : (s.inserted hash pos set).flags other =
    if other = hash then set else s.flags other := by
  have is : SlotOf (proofCellFingerprint hash) s.count set
      (packSlot (proofCellFingerprint hash) (s.count + 1) set) := slotOf_packSlot small low
  have taken := h.taken small low
  have sound := h.inserted small low
  have entries : (s.inserted hash pos set).entries = s.entries ++ [hash] := entries_appendHash
  split
  next same =>
    rw [same]
    refine sound.flags_present ⟨taken.mem_iff.mpr mem_cons_self, ?_, is⟩
    rw [entries, ← h.sound.counted]
    simp
  next differ =>
    apply h.sound.flags_eq sound
    · intro i fl slot held
      refine ⟨slot, taken.mem_iff.mpr (mem_cons_of_mem _ held.mem), ?_, held.is⟩
      rw [entries, getElem?_append_left (List.getElem?_eq_some_iff.mp held.entry).1]
      exact held.entry
    · intro absent
      rw [entries, mem_append, mem_singleton]
      exact not_or.mpr ⟨absent, differ⟩

end Inserted

/-- The table with other flags in one slot. -/
def reflagged (s : ProofSeenHashSet) (pos : Nat) (slot flags : BitVec 64) : ProofSeenHashSet :=
  { s with slots := s.slots.set pos (reflag slot flags) }

section Reflagged

variable {pos : Nat} {next : BitVec 64} (h : Sound s) (found : s.slots[pos]? = some slot)
  (entry : s.entries[i]? = some hash) (is : SlotOf (proofCellFingerprint hash) i fl slot)
  (low : next.toNat < 8)
include found is low

theorem taken_reflagged : ∃ rest,
    (taken slotFree s.slots).Perm (slot :: rest) ∧
    (taken slotFree (s.reflagged pos slot next).slots).Perm (reflag slot next :: rest) :=
  taken_set_taken found is.used (is.reflag low).used

include h entry

theorem Sound.reflagged : Sound (s.reflagged pos slot next) := by
  have now := is.reflag low
  have count : slotCount (reflag slot next) = slotCount slot := by
    apply BitVec.eq_of_toNat_eq
    rw [now.count, is.count]
  obtain ⟨rest, before, after⟩ := taken_reflagged found is low
  have length : (s.reflagged pos slot next).slots.length = s.slots.length := length_set
  refine ⟨?_, ?_, h.small, h.packed, h.counted, h.nodup, ?_, ?_, ?_, ?_⟩
  · rcases h.size with none_ | ⟨k, size⟩
    · rw [none_] at found
      cases found
    · exact .inr ⟨k, length.trans size⟩
  · rw [length]
    exact h.room
  · apply Settled.set h.settled now.used
    have reaches := h.settled found is.used
    unfold slotHome at reaches ⊢
    rw [now.fingerprint]
    rw [is.fingerprint] at reaches
    exact reaches
  · intro j other there
    obtain ⟨slot', mem, flags, was⟩ := h.slotted there
    rcases mem_cons.mp (before.mem_iff.mp mem) with rfl | kept
    · refine ⟨_, after.mem_iff.mpr mem_cons_self, next, ?_⟩
      exact was.reflag low
    · exact ⟨slot', after.mem_iff.mpr (mem_cons_of_mem _ kept), flags, was⟩
  · intro slot' mem
    rcases mem_cons.mp (after.mem_iff.mp mem) with rfl | kept
    · exact ⟨i, hash, next, entry, now⟩
    · exact h.owned slot' (before.mem_iff.mpr (mem_cons_of_mem _ kept))
  · have once := (before.map slotCount).nodup_iff.mp h.once
    refine (after.map slotCount).nodup_iff.mpr ?_
    rw [map_cons, count]
    exact once

theorem Sound.flags_reflagged (other : CellHash) : (s.reflagged pos slot next).flags other =
    if other = hash then next else s.flags other := by
  have sound := h.reflagged found entry is low
  obtain ⟨rest, before, after⟩ := taken_reflagged found is low
  split
  next same =>
    rw [same]
    exact sound.flags_present ⟨after.mem_iff.mpr mem_cons_self, entry, is.reflag low⟩
  next differ =>
    apply h.flags_eq sound
    · intro j fl' slot' held
      refine ⟨slot', after.mem_iff.mpr (mem_cons_of_mem _ ?_), held.entry, held.is⟩
      rcases mem_cons.mp (before.mem_iff.mp held.mem) with rfl | kept
      · exfalso
        apply differ
        have counts := held.is.count
        rw [is.count] at counts
        have same : j = i := by omega
        have there := held.entry
        rw [same] at there
        exact Option.some.inj (there.symm.trans entry)
      · exact kept
    · exact fun absent => absent

end Reflagged

/-! ## Observing -/

theorem Sound.of_unused (size : s.slots = [] ∨ ∃ k, s.slots.length = 2 ^ k)
    (packed : Chunks.Packed 1024 s.hashes) (none_ : s.entries = []) (zero : s.count = 0)
    (unused : taken slotFree s.slots = []) : Sound s where
  size := size
  room := by
    rw [zero]
    exact Nat.zero_le _
  small := by
    rw [zero]
    decide
  packed := packed
  counted := by rw [none_, zero]; rfl
  nodup := by
    rw [none_]
    exact nodup_nil
  settled := by
    intro p slot found used
    have mem : slot ∈ taken slotFree s.slots :=
      mem_taken.mpr ⟨mem_of_getElem? found, used⟩
    rw [unused] at mem
    cases mem
  slotted := by
    intro i hash entry
    rw [none_] at entry
    cases entry
  owned := by
    intro slot mem
    rw [unused] at mem
    cases mem
  once := by
    rw [unused]
    exact nodup_nil

theorem Sound.unallocated (h : Sound s) (none_ : s.slots = []) : s.count = 0 ∧ s.entries = [] := by
  have room := h.room
  rw [none_, length_nil] at room
  have zero : s.count = 0 := by omega
  exact ⟨zero, eq_nil_of_length_eq_zero (h.counted.trans zero)⟩

theorem Sound.sized {n k : Nat} (h : Sound s) (none_ : s.slots = []) (size : n = 2 ^ k) :
    Sound { s with slots := List.replicate n 0#64 } ∧
      ∀ other, { s with slots := List.replicate n 0#64 }.flags other = s.flags other := by
  obtain ⟨zero, noEntries⟩ := h.unallocated none_
  have sound : Sound { s with slots := List.replicate n 0#64 } :=
    .of_unused (.inr ⟨k, length_replicate.trans size⟩) h.packed noEntries zero (taken_replicate rfl)
  refine ⟨sound, ?_⟩
  intro other
  have absent : other ∉ s.entries := by simp [noEntries]
  rw [h.flags_absent absent]
  exact sound.flags_absent absent

theorem Sound.allocated (h : Sound s) : Sound s.allocated ∧
    (∃ k, s.allocated.slots.length = 2 ^ k) ∧ s.allocated.hashes = s.hashes ∧
    s.allocated.count = s.count ∧ ∀ other, s.allocated.flags other = s.flags other := by
  unfold ProofSeenHashSet.allocated
  rcases h.size with none_ | ⟨k, size⟩
  · have empty_ : s.slots.isEmpty = true := by
      rw [none_]
      rfl
    obtain ⟨sound, flags⟩ := @sized _ 64 6 h none_ rfl
    rw [if_pos empty_]
    exact ⟨sound, ⟨6, length_replicate⟩, rfl, rfl, flags⟩
  · have some_ : ¬ s.slots.isEmpty = true := by
      intro empty
      have pos := Nat.two_pow_pos k
      rw [List.isEmpty_iff.mp empty, length_nil] at size
      omega
    rw [if_neg some_]
    exact ⟨h, ⟨k, size⟩, rfl, rfl, fun _ => rfl⟩

/-- What `observe` does: the flags of one hash change, and the hash is in the table from then
on. -/
structure Observed (s s' : ProofSeenHashSet) (hash : CellHash) (set clear : BitVec 64) : Prop where
  sound : Sound s'
  flags : ∀ other, s'.flags other =
    if other = hash then s.flags hash &&& ~~~clear ||| set else s.flags other
  entries : s'.entries = if hash ∈ s.entries then s.entries else s.entries ++ [hash]

theorem toNat_or_lt {x y : BitVec 64} (hx : x.toNat < 8) (hy : y.toNat < 8) :
    (x ||| y).toNat < 8 := by
  exact @Nat.or_lt_two_pow x.toNat y.toNat 3 hx hy

theorem toNat_and_lt {x y : BitVec 64} (hx : x.toNat < 8) : (x &&& y).toNat < 8 := by
  exact Nat.lt_of_le_of_lt Nat.and_le_left hx

theorem reflag_same : reflag slot (slot &&& proofSeenFlagMask) = slot := by
  apply BitVec.eq_of_toNat_eq
  have low : (slot &&& proofSeenFlagMask).toNat < 8 := by
    rw [toNat_and_flagMask]
    omega
  rw [toNat_reflag low, toNat_and_flagMask]
  omega

theorem observe_present (h : Sound s) (present : hash ∈ s.entries) (low : set.toNat < 8) :
    ∃ s', s.observe hash set clear = some (s.flags hash, s') ∧ Observed s s' hash set clear := by
  obtain ⟨sound, -, hashes, -, flags⟩ := h.allocated
  have same : s.allocated.entries = s.entries := by
    unfold ProofSeenHashSet.entries
    rw [hashes]
  obtain ⟨i, fl, slot, held⟩ := sound.exists_holds (same ▸ present)
  obtain ⟨pos, ends, found⟩ := sound.walk_present held
  have prior : s.flags hash = fl := by
    rw [← flags]
    exact sound.flags_present held
  obtain ⟨-, entry, is⟩ := held
  have nextLow : (fl &&& ~~~clear ||| set).toNat < 8 := toNat_or_lt (toNat_and_lt is.flags_lt) low
  refine ⟨s.allocated.reflagged pos slot (fl &&& ~~~clear ||| set), ?_, ?_⟩
  · unfold ProofSeenHashSet.observe
    simp only [ends, Option.bind_eq_bind, Option.bind_some, is.used, Bool.not_false, if_true,
      is.flags, prior]
    split
    · rfl
    next unchanged =>
      simp only [ne_eq, not_not] at unchanged
      have slots : (s.allocated.reflagged pos slot (fl &&& ~~~clear ||| set)) = s.allocated := by
        unfold ProofSeenHashSet.reflagged
        rw [unchanged, ← is.flags, reflag_same]
        obtain ⟨inside, at_⟩ := List.getElem?_eq_some_iff.mp found
        rw [← at_, set_getElem_self]
      rw [slots]
      rfl
  · refine ⟨sound.reflagged found entry is nextLow, ?_, ?_⟩
    · intro other
      rw [sound.flags_reflagged found entry is nextLow, prior, flags]
    · rw [if_pos present]
      exact same

theorem observe_absent (h : Sound s) (absent : hash ∉ s.entries) (small : s.count + 1 < 2 ^ 29)
    (low : set.toNat < 8) :
    ∃ s', s.observe hash set clear = some (s.flags hash, s') ∧ Observed s s' hash set clear := by
  obtain ⟨sound, ⟨k, size⟩, hashes, count, flags⟩ := h.allocated
  have same : s.allocated.entries = s.entries := by
    unfold ProofSeenHashSet.entries
    rw [hashes]
  have absent' : hash ∉ s.allocated.entries := by rwa [same]
  obtain ⟨pos, slot, ends, found, free, reaches⟩ := sound.walk_absent absent' size
  obtain ⟨s', pos', made, ready, hashes', count', taken⟩ :=
    sound.makeRoom absent' size found free reaches
  have small' : s'.count + 1 < 2 ^ 29 := by rwa [count', count]
  have before : s.flags hash = 0#64 := h.flags_absent absent
  refine ⟨s'.inserted hash pos' set, ?_, ready.inserted small' low, ?_, ?_⟩
  · unfold ProofSeenHashSet.observe
    simp only [ends, Option.bind_eq_bind, Option.bind_some, free, Bool.not_true,
      Bool.false_eq_true, if_false, made, before]
    rfl
  · intro other
    rw [ready.flags_inserted small' low, before]
    have kept : s'.entries = s.entries := by
      unfold ProofSeenHashSet.entries
      rw [hashes', hashes]
    split
    · simp
    · rw [← flags]
      apply sound.flags_eq ready.sound
      · intro j fl slot held
        refine ⟨slot, taken.mem_iff.mpr held.mem, ?_, held.is⟩
        rw [kept, ← same]
        exact held.entry
      · rw [kept, same]
        exact fun absent => absent
  · rw [if_neg absent]
    change (s'.appendHash hash).entries = _
    rw [entries_appendHash]
    unfold ProofSeenHashSet.entries
    rw [hashes', hashes]

theorem observe_spec (h : Sound s) (small : hash ∉ s.entries → s.count + 1 < 2 ^ 29)
    (low : set.toNat < 8) :
    ∃ s', s.observe hash set clear = some (s.flags hash, s') ∧ Observed s s' hash set clear := by
  by_cases present : hash ∈ s.entries
  · exact observe_present h present low
  · exact observe_absent h present (small present) low

/-! ## New tables -/

theorem presizedSlots_pow {expected fuel : Nat} :
    ∀ {k : Nat}, ∃ k', presizedSlots expected fuel (2 ^ k) = 2 ^ k' := by
  induction fuel with
  | zero => exact fun {k} => ⟨k, rfl⟩
  | succ fuel ih =>
    intro k
    unfold presizedSlots
    split
    · rw [← Nat.pow_succ']
      exact ih
    · exact ⟨k, rfl⟩

theorem sound_empty : Sound empty := .of_unused (.inl rfl) (.inl rfl) rfl rfl rfl

theorem Sound.presize (h : Sound s) (expected : Int) : Sound (s.presize expected) ∧
    (s.presize expected).entries = s.entries ∧
    ∀ other, (s.presize expected).flags other = s.flags other := by
  unfold ProofSeenHashSet.presize
  split
  · exact ⟨h, rfl, fun _ => rfl⟩
  next made =>
    simp only [Bool.or_eq_true, decide_eq_true_eq, Bool.not_eq_true', not_or, Bool.not_eq_false,
      List.isEmpty_iff] at made
    obtain ⟨k, size⟩ := @presizedSlots_pow (min expected.toNat proofSeenMaxPresizedCells)
      (2 * min expected.toNat proofSeenMaxPresizedCells) 6
    obtain ⟨sound, flags⟩ := h.sized made.2 size
    exact ⟨sound, rfl, flags⟩

end Sound

end ProofSeenHashSet

end Gton.Collator
