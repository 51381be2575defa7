import Gton.Lib.Bytes
import Gton.Lib.Fallible
import Gton.Simplex.Types

/-!
# Candidate frames written in place

A compressed candidate payload lies in the buffer it will be broadcast from, with room on both
sides. `wireInPlace` writes `consensus.block` around it and `wrapInPlace` writes
`consensus.candidate` around that. Each room is used once; whoever comes later gets a copy.
-/

namespace Gton.Simplex

open Bytes
open List

/-- Why a call gives no result: an index out of range, or an error it returns. -/
inductive Fault where
  | panic
  | error (msg : String)
  deriving DecidableEq

/-! ## Writes into a byte slice -/

/-- `binary.LittleEndian.PutUint32`, `dst[i] = b`: all bytes fit, or a panic. -/
def put (dst : List UInt8) (pos : Nat) (data : List UInt8) : Except Fault (List UInt8) :=
  if pos + data.length ≤ dst.length then .ok (overwrite dst pos data) else .error .panic

/-- `copy(dst[pos:], src)`: as much as fits, and how much that was. -/
def copyInto (dst : List UInt8) (pos : Nat) (src : List UInt8) : Except Fault (List UInt8 × Nat) :=
  if pos ≤ dst.length then
    let n := min src.length (dst.length - pos)
    .ok (overwrite dst pos (src.take n), n)
  else .error .panic

/-- `clear(dst[i:j])` -/
def clear (dst : List UInt8) (i j : Nat) : Except Fault (List UInt8) :=
  if i ≤ j ∧ j ≤ dst.length then .ok (overwrite dst i (List.replicate (j - i) 0))
  else .error .panic

def putUint32 (dst : List UInt8) (pos : Nat) (value : UInt32) :
    Except Fault (List UInt8 × Nat) := do
  let dst ← put dst pos (le32 value)
  return (dst, pos + 4)

def tlBytesFraming (length : Nat) : Except String (Nat × Nat) :=
  let framed (header : Nat) : Except String (Nat × Nat) :=
    let rem := (header + length) % 4
    .ok (header, if rem ≠ 0 then 4 - rem else 0)
  if length < 0xFE then framed 1
  else if length < 2 ^ 24 then framed 4
  else if length < 2 ^ 32 then framed 8
  else .error s!"TL bytes length {length} exceeds 1<<32"

def putTLBytesHeader (dst : List UInt8) (pos length : Nat) : Except Fault (List UInt8 × Nat) := do
  if length < 0xFE then
    let dst ← put dst pos [UInt8.ofNat length]
    return (dst, pos + 1)
  else if length < 2 ^ 24 then
    let dst ← put dst pos (le32 (UInt32.ofNat length <<< 8 ||| 0xFE))
    return (dst, pos + 4)
  else
    let dst ← put dst pos [0xFF]
    let dst ← put dst (pos + 1) (le32 (UInt32.ofNat length))
    let dst ← clear dst (pos + 5) (pos + 8)
    return (dst, pos + 8)

/-! ## The payload and its frames -/

def idCompressedCandidate : UInt32 := 0x4212c777
def idConsensusBlock : UInt32 := 0x3c36f9d5
def idCandidateWrapped : UInt32 := 0x7173bf31
def idCandidateID : UInt32 := 0xb691cd3f
def idCandidateParent : UInt32 := 0x1a4b9af1
def idCandidateWithoutParents : UInt32 := 0x22cbcca9

def hashBytes (h : Hash) : List UInt8 := (leBytes 32 h.toNat).reverse

/-- `tl.Serialize(parentToTL(p), true)` -/
def serializeParent (p : ParentID) : List UInt8 :=
  if p.defined then
    le32 idCandidateParent ++ le32 idCandidateID ++ le32 p.id.slot ++ hashBytes p.id.hash
  else le32 idCandidateWithoutParents

/-- A byte slice a call takes or returns: bytes of its own, or a part of the payload's buffer. -/
inductive Wire where
  | heap (bytes : List UInt8)
  | part (start stop : Nat)
  deriving DecidableEq

def Wire.bytes (buf : List UInt8) : Wire → List UInt8
  | .heap bytes => bytes
  | .part start stop => slice buf start stop

def Wire.length : Wire → Nat
  | .heap bytes => bytes.length
  | .part start stop => stop - start

/-- `&wire[0] == &buf[start]` -/
def Wire.startsAt (start : Nat) : Wire → Bool
  | .heap _ => false
  | .part s _ => s == start

structure CandidateFrame where
  start : Nat
  stop : Nat
  deriving DecidableEq

structure CandidatePayload where
  buf : List UInt8
  start : Nat
  stop : Nat
  wireClaimed : Bool
  frame : Option CandidateFrame
  deriving DecidableEq

def compressedCandidateHeaderBytes : Nat := 4 + 4 + 32 + 4 + 32 + 4
def candidatePayloadHeadroom : Nat := 192
def candidatePayloadTailroom : Nat := 256

/-- `compressCandidatePayload` once the roots are serialized to `combined` bytes and LZ4 has
compressed them to `compressed`. -/
def compressCandidatePayload (seqNo : UInt32) (rootHash : List UInt8) (combined : Nat)
    (compressed : List UInt8) : Except Fault CandidatePayload := do
  if rootHash.length ≠ 32 then
    throw (.error s!"simplex: candidate root hash is {rootHash.length} bytes")
  if combined > 2147483647 then throw (.error "simplex: combined candidate BOC is too large")
  let (dataHeader, dataPad) ← (tlBytesFraming compressed.length).mapError fun err =>
    .error s!"simplex: frame compressed candidate data: {err}"
  let start := candidatePayloadHeadroom - compressedCandidateHeaderBytes - dataHeader
  let buf := List.replicate
    (candidatePayloadHeadroom + compressed.length + dataPad + candidatePayloadTailroom) 0
  let (buf, pos) ← putUint32 buf start idCompressedCandidate
  let (buf, pos) ← putUint32 buf pos 0
  let buf ← clear buf pos (pos + 32)
  let pos := pos + 32
  let (buf, pos) ← putUint32 buf pos seqNo
  let (buf, n) ← copyInto buf pos rootHash
  let (buf, pos) ← putUint32 buf (pos + n) (UInt32.ofNat combined)
  let (buf, pos) ← putTLBytesHeader buf pos compressed.length
  let (buf, n) ← copyInto buf pos compressed
  let pos := pos + n
  let buf ← clear buf pos (pos + dataPad)
  return ⟨buf, start, pos + dataPad, false, none⟩

namespace CandidatePayload

def bytes (p : CandidatePayload) : List UInt8 := slice p.buf p.start p.stop

/-- The `consensus.block` frame, or nothing when it does not fit or the room is taken. -/
def wireInPlace (p : CandidatePayload) (c : Candidate) :
    Except Fault (CandidatePayload × Option Wire) := do
  let parent := serializeParent c.parent
  let (payloadHeader, payloadPad) ← (tlBytesFraming (p.stop - p.start)).mapError fun err =>
    .error s!"simplex: frame candidate payload: {err}"
  let (signatureHeader, signaturePad) ← (tlBytesFraming c.signature.length).mapError fun err =>
    .error s!"simplex: frame candidate signature: {err}"
  let front := 4 + 4 + parent.length + payloadHeader
  let stop := p.stop + payloadPad + signatureHeader + c.signature.length + signaturePad
  -- `start < 8` for `start := p.start - front`
  if p.start < front + 8 ∨ stop > p.buf.length ∨ p.wireClaimed then return (p, none)
  let start := p.start - front
  let (buf, pos) ← putUint32 p.buf start idConsensusBlock
  let (buf, pos) ← putUint32 buf pos c.id.slot
  let (buf, n) ← copyInto buf pos parent
  let (buf, _) ← putTLBytesHeader buf (pos + n) (p.stop - p.start)
  let buf ← clear buf p.stop (p.stop + payloadPad)
  let (buf, pos) ← putTLBytesHeader buf (p.stop + payloadPad) c.signature.length
  let (buf, n) ← copyInto buf pos c.signature
  let buf ← clear buf (pos + n) (pos + n + signaturePad)
  return ({ p with buf, wireClaimed := true, frame := some ⟨start, stop⟩ }, some (.part start stop))

/-- The `consensus.candidate` wrapper around the frame, when `wire` is that frame. -/
def wrapInPlace (p : CandidatePayload) (wire : Wire) (delegation : List UInt8) :
    Except Fault (CandidatePayload × Option Wire) := do
  match p.frame with
  | none => return (p, none)
  | some frame =>
    if wire.length ≠ frame.stop - frame.start ∨ !wire.startsAt frame.start then return (p, none)
    let stop := frame.stop + delegation.length
    -- `start < 0` for `start := frame.start - 8`
    if frame.start < 8 ∨ stop > p.buf.length then return (p, none)
    let start := frame.start - 8
    let (buf, _) ← putUint32 p.buf start idCandidateWrapped
    let (buf, _) ← putUint32 buf (start + 4) 1
    let (buf, _) ← copyInto buf frame.stop delegation
    return ({ p with buf, frame := none }, some (.part start stop))

end CandidatePayload

/-! ## The copying encoders -/

/-- `tl.Serialize` of `consensus.block`. -/
def serializeConsensusBlock (c : Candidate) (payload : List UInt8) : List UInt8 :=
  le32 idConsensusBlock ++ le32 c.id.slot ++ serializeParent c.parent ++ TL.encodeBytes payload ++
    TL.encodeBytes c.signature

/-- The copy `wrapCandidateFrame` makes. -/
def wrapCopy (wire delegation : List UInt8) : List UInt8 :=
  le32 idCandidateWrapped ++ le32 1 ++ wire ++ delegation

/-- `tl.Serialize` of `validatorSession.compressedCandidate`. -/
def serializeCompressedCandidate (seqNo : UInt32) (rootHash : List UInt8) (combined : Nat)
    (compressed : List UInt8) : List UInt8 :=
  le32 idCompressedCandidate ++ le32 0 ++ List.replicate 32 0 ++ le32 seqNo ++ rootHash ++
    le32 (UInt32.ofNat combined) ++ TL.encodeBytes compressed

namespace CandidatePayload

def serializeBlockCandidateWire (p : CandidatePayload) (c : Candidate) :
    Except Fault (CandidatePayload × Wire) := do
  let (p, wire) ← p.wireInPlace c
  match wire with
  | some wire => return (p, wire)
  | none => return (p, .heap (serializeConsensusBlock c p.bytes))

/-- `wrapCandidateFrame` with a delegation, once `tl.Serialize` has encoded it. -/
def wrapFrame (p : CandidatePayload) (wire : Wire) (delegation : List UInt8) :
    Except Fault (CandidatePayload × Wire) := do
  let (p, wrapped) ← p.wrapInPlace wire delegation
  match wrapped with
  | some wrapped => return (p, wrapped)
  | none => return (p, .heap (wrapCopy (wire.bytes p.buf) delegation))

end CandidatePayload

/-! ## What a run of writes leaves -/

section Writes

open Lib.Fallible

variable {buf data : List UInt8} {start pos n : Nat} {v : UInt32}

theorem put_append {more : List UInt8} (here : pos = start + data.length)
    (fits : pos + more.length ≤ buf.length) :
    put (overwrite buf start data) pos more = .ok (overwrite buf start (data ++ more)) := by
  have first : start + data.length ≤ buf.length := by omega
  subst here
  unfold put
  rw [length_overwrite first, if_pos fits, overwrite_overwrite fits]

theorem putUint32_append (here : pos = start + data.length)
    (fits : pos + 4 ≤ buf.length) : putUint32 (overwrite buf start data) pos v =
      .ok (overwrite buf start (data ++ le32 v), pos + 4) :=
  bind_eq_ok.mpr ⟨_, put_append here (by rwa [length_le32]), rfl⟩

theorem putUint32_first (fits : start + 4 ≤ buf.length) :
    putUint32 buf start v = .ok (overwrite buf start (le32 v), start + 4) := by
  have write := @putUint32_append buf [] start start v rfl fits
  rwa [overwrite_nil, nil_append] at write

theorem copyInto_append {src : List UInt8} (here : pos = start + data.length)
    (fits : pos + src.length ≤ buf.length) : copyInto (overwrite buf start data) pos src =
      .ok (overwrite buf start (data ++ src), src.length) := by
  have first : start + data.length ≤ buf.length := by omega
  have all : min src.length (buf.length - (start + data.length)) = src.length := by omega
  subst here
  unfold copyInto
  rw [length_overwrite first, if_pos first]
  dsimp only
  rw [all, take_length, overwrite_overwrite fits]

theorem clear_append (here : pos = start + data.length) (fits : pos + n ≤ buf.length) :
    clear (overwrite buf start data) pos (pos + n) =
      .ok (overwrite buf start (data ++ List.replicate n 0)) := by
  have first : start + data.length ≤ buf.length := by omega
  subst here
  unfold clear
  rw [length_overwrite first, if_pos ⟨by omega, fits⟩, Nat.add_sub_cancel_left,
    overwrite_overwrite (by rwa [length_replicate])]

theorem clear_first (fits : start + n ≤ buf.length) :
    clear buf start (start + n) = .ok (overwrite buf start (List.replicate n 0)) := by
  have write := @clear_append buf [] start start n rfl fits
  rwa [overwrite_nil, nil_append] at write

theorem tlBytesFraming_eq (small : n < 2 ^ 32) :
    tlBytesFraming n = .ok ((TL.bytesHeader n).length, TL.bytesPad n) := by
  have pad (header : Nat) :
      (if (header + n) % 4 ≠ 0 then 4 - (header + n) % 4 else 0) = (4 - (header + n) % 4) % 4 := by
    split <;> omega
  unfold tlBytesFraming TL.bytesPad
  dsimp only
  rw [TL.length_bytesHeader]
  split
  · rw [pad]
  · split
    · rw [pad]
    · rw [pad]

theorem tlBytesFraming_error (large : ¬ n < 2 ^ 32) : ∃ err, tlBytesFraming n = .error err := by
  unfold tlBytesFraming
  rw [if_neg (by omega), if_neg (by omega), if_neg large]
  exact ⟨_, rfl⟩

theorem putTLBytesHeader_append (small : n < 2 ^ 32) (here : pos = start + data.length)
    (fits : pos + (TL.bytesHeader n).length ≤ buf.length) :
    putTLBytesHeader (overwrite buf start data) pos n =
      .ok (overwrite buf start (data ++ TL.bytesHeader n), pos + (TL.bytesHeader n).length) := by
  rw [TL.length_bytesHeader] at fits ⊢
  unfold putTLBytesHeader TL.bytesHeader
  split
  next short =>
    rw [if_pos short] at fits
    exact bind_eq_ok.mpr ⟨_, put_append here fits, rfl⟩
  next short =>
    rw [if_neg short] at fits
    split
    next medium =>
      rw [if_pos medium] at fits
      rw [← TL.le32_marked medium]
      exact bind_eq_ok.mpr ⟨_, put_append here (by rwa [length_le32]), rfl⟩
    next long =>
      rw [if_neg long] at fits
      -- the marker, the length and three zeros, one behind the other
      have marker := @put_append buf data start pos [0xFF] here (by simp; omega)
      have length := @put_append buf (data ++ [0xFF]) start (pos + 1) (le32 (UInt32.ofNat n))
        (by simp; omega) (by simp; omega)
      have zeros := @clear_append buf (data ++ [0xFF] ++ le32 (UInt32.ofNat n)) start (pos + 5) 3
        (by simp; omega) (by omega)
      have all : data ++ [0xFF] ++ le32 (UInt32.ofNat n) ++ List.replicate 3 0 =
          data ++ 255 :: leBytes 7 n := by
        rw [TL.leBytes_seven small, append_assoc, append_assoc]
        rfl
      rw [all] at zeros
      exact bind_eq_ok.mpr ⟨_, marker, bind_eq_ok.mpr ⟨_, length, bind_eq_ok.mpr ⟨_, zeros, rfl⟩⟩⟩

end Writes

/-! ## The frames -/

/-- What `consensus.block` puts in front of a payload of length `n`. -/
def frameFront (c : Candidate) (n : Nat) : List UInt8 :=
  le32 idConsensusBlock ++ le32 c.id.slot ++ serializeParent c.parent ++ TL.bytesHeader n

/-- What `consensus.block` puts behind a payload of length `n`. -/
def frameBack (c : Candidate) (n : Nat) : List UInt8 :=
  List.replicate (TL.bytesPad n) 0 ++ TL.bytesHeader c.signature.length ++ c.signature ++
    List.replicate (TL.bytesPad c.signature.length) 0

theorem serializeConsensusBlock_eq (c : Candidate) (payload : List UInt8) :
    serializeConsensusBlock c payload =
      frameFront c payload.length ++ payload ++ frameBack c payload.length := by
  simp only [serializeConsensusBlock, frameFront, frameBack, TL.encodeBytes, append_assoc]

namespace CandidatePayload

open Lib.Fallible

variable {p p' p₀ : CandidatePayload} {c : Candidate} {log : List (Wire × List UInt8)}
  {seqNo : UInt32}

/-- The payload lies inside its buffer. -/
def Placed (p : CandidatePayload) : Prop := p.start ≤ p.stop ∧ p.stop ≤ p.buf.length

/-- The payload with its `consensus.block` frame written from `start` on. -/
def framed (p : CandidatePayload) (c : Candidate) (start : Nat) : CandidatePayload :=
  let front := frameFront c (p.stop - p.start)
  let back := frameBack c (p.stop - p.start)
  { p with
    buf := overwrite (overwrite p.buf start front) p.stop back
    wireClaimed := true
    frame := some ⟨start, p.stop + back.length⟩ }

theorem wireInPlace_cases (placed : p.Placed) (payload : p.stop - p.start < 2 ^ 32)
    (signature : c.signature.length < 2 ^ 32) :
    (p.wireInPlace c = .ok (p, none) ∧
      (p.start < (frameFront c (p.stop - p.start)).length + 8 ∨
        p.buf.length < p.stop + (frameBack c (p.stop - p.start)).length ∨ p.wireClaimed = true)) ∨
      (p.wireClaimed = false ∧ ∃ start, 8 ≤ start ∧
        start + (frameFront c (p.stop - p.start)).length = p.start ∧
        p.stop + (frameBack c (p.stop - p.start)).length ≤ p.buf.length ∧
        p.wireInPlace c = .ok (p.framed c start,
          some (.part start (p.stop + (frameBack c (p.stop - p.start)).length)))) := by
  have front : (frameFront c (p.stop - p.start)).length =
      4 + 4 + (serializeParent c.parent).length + (TL.bytesHeader (p.stop - p.start)).length := by
    simp [frameFront]
    omega
  have back : (frameBack c (p.stop - p.start)).length = TL.bytesPad (p.stop - p.start) +
      (TL.bytesHeader c.signature.length).length + c.signature.length +
      TL.bytesPad c.signature.length := by
    simp [frameBack, Nat.add_assoc]
  unfold wireInPlace
  rw [tlBytesFraming_eq payload, tlBytesFraming_eq signature]
  dsimp only [Except.mapError, bind, Except.bind]
  split
  next full =>
    refine .inl ⟨rfl, ?_⟩
    rcases full with ahead | behind | claimed
    · exact .inl (by omega)
    · exact .inr (.inl (by omega))
    · exact .inr (.inr claimed)
  next room =>
    simp only [not_or, Nat.not_lt, Bool.not_eq_true] at room
    obtain ⟨ahead, behind, free⟩ := room
    refine .inr ⟨free, p.start - (frameFront c (p.stop - p.start)).length, by omega, by omega,
      by omega, ?_⟩
    rw [← front]
    generalize hs : p.start - (frameFront c (p.stop - p.start)).length = start
    obtain ⟨ordered, inside⟩ := placed
    -- in front of the payload
    rw [putUint32_first (by omega)]
    simp (disch := (try simp only [length_append, length_le32]) <;> omega) only
      [putUint32_append, copyInto_append, putTLBytesHeader_append]
    -- behind the payload
    have same : (overwrite p.buf start (frameFront c (p.stop - p.start))).length = p.buf.length :=
      length_overwrite (by omega)
    change Except.bind (clear (overwrite p.buf start (frameFront c (p.stop - p.start))) _ _) _ = _
    dsimp only [framed]
    generalize overwrite p.buf start (frameFront c (p.stop - p.start)) = buf at same ⊢
    dsimp only [Except.bind]
    rw [clear_first (by omega)]
    simp (disch := (try simp only [length_append, length_replicate]) <;> omega) only
      [putTLBytesHeader_append, copyInto_append, clear_append]
    have stop : p.stop + TL.bytesPad (p.stop - p.start) +
        (TL.bytesHeader c.signature.length).length + c.signature.length +
        TL.bytesPad c.signature.length = p.stop + (frameBack c (p.stop - p.start)).length := by
      omega
    rw [stop]
    rfl

/-- The payload with the `consensus.candidate` wrapper around its frame. -/
def wrapped (p : CandidatePayload) (f : CandidateFrame) (delegation : List UInt8) :
    CandidatePayload :=
  { p with
    buf := overwrite (overwrite p.buf (f.start - 8) (le32 idCandidateWrapped ++ le32 1)) f.stop
      delegation
    frame := none }

theorem wrapInPlace_cases (wire : Wire) (delegation : List UInt8)
    (inside : ∀ f, p.frame = some f → f.start < f.stop ∧ f.stop ≤ p.buf.length) :
    p.wrapInPlace wire delegation = .ok (p, none) ∨
      ∃ f, p.frame = some f ∧ wire = .part f.start f.stop ∧ 8 ≤ f.start ∧
        f.stop + delegation.length ≤ p.buf.length ∧
        p.wrapInPlace wire delegation =
          .ok (p.wrapped f delegation,
            some (.part (f.start - 8) (f.stop + delegation.length))) := by
  unfold wrapInPlace
  cases hf : p.frame with
  | none => exact .inl rfl
  | some f =>
    obtain ⟨nonempty, ends⟩ := inside f hf
    dsimp only
    split
    · exact .inl rfl
    next own =>
      split
      · exact .inl rfl
      next room =>
        simp only [not_or, Nat.not_lt] at room
        have same : wire = .part f.start f.stop := by
          cases wire with
          | heap => simp [Wire.startsAt] at own
          | part s e =>
            simp only [Wire.length, Wire.startsAt, not_or] at own
            have start : s = f.start := by simpa using own.2
            have stop : e = f.stop := by omega
            rw [start, stop]
        refine .inr ⟨f, rfl, same, room.1, room.2, ?_⟩
        have header : (overwrite p.buf (f.start - 8) (le32 idCandidateWrapped ++ le32 1)).length =
            p.buf.length := length_overwrite (by
          rw [length_append, length_le32, length_le32]
          omega)
        have copied := @copyInto_append
          (overwrite p.buf (f.start - 8) (le32 idCandidateWrapped ++ le32 1)) [] f.stop f.stop
          delegation rfl (by rw [header]; exact room.2)
        rw [overwrite_nil, nil_append] at copied
        dsimp only [bind, Except.bind]
        rw [putUint32_first (by omega)]
        dsimp only
        rw [putUint32_append (by rw [length_le32]) (by omega)]
        dsimp only
        rw [copied]
        rfl

/-! ## Any sequence of calls -/

/-- Calls on a payload `p₀`, with the wires they returned and the bytes the copying encoders give
for the same inputs. -/
inductive Served (p₀ : CandidatePayload) : CandidatePayload → List (Wire × List UInt8) → Prop where
  | fresh : Served p₀ p₀ []
  | wire {p p' : CandidatePayload} {log : List (Wire × List UInt8)} {w : Wire} (c : Candidate) :
      Served p₀ p log → p.serializeBlockCandidateWire c = .ok (p', w) →
      Served p₀ p' ((w, serializeConsensusBlock c p₀.bytes) :: log)
  | wrap {p p' : CandidatePayload} {log : List (Wire × List UInt8)} {w : Wire} (wire : Wire)
      (delegation : List UInt8) : Served p₀ p log → p.wrapFrame wire delegation = .ok (p', w) →
      Served p₀ p' ((w, wrapCopy (wire.bytes p.buf) delegation) :: log)

/-- A payload nobody has framed yet. -/
structure Fresh (p : CandidatePayload) : Prop where
  placed : p.Placed
  free : p.wireClaimed = false
  bare : p.frame = none

structure Sound (p₀ p : CandidatePayload) (log : List (Wire × List UInt8)) : Prop where
  start : p.start = p₀.start
  stop : p.stop = p₀.stop
  placed : p.Placed
  bytes : p.bytes = p₀.bytes
  frame : ∀ f, p.frame = some f → p.wireClaimed = true ∧ f.start < f.stop ∧ f.start ≤ p.start ∧
    p.stop ≤ f.stop ∧ f.stop ≤ p.buf.length
  reads : ∀ w x, (w, x) ∈ log → w.bytes p.buf = x
  /-- Wires in the buffer lie in the current frame, which is never written again. -/
  parts : ∀ s e x, (.part s e, x) ∈ log → p.wireClaimed = true ∧
    ∀ f, p.frame = some f → f.start ≤ s ∧ e ≤ f.stop

namespace Sound

variable {p₀ : CandidatePayload} {log : List (Wire × List UInt8)}

theorem fresh (h : Fresh p₀) : Sound p₀ p₀ [] where
  start := rfl
  stop := rfl
  placed := h.placed
  bytes := rfl
  frame f hf := by
    rw [h.bare] at hf
    cases hf
  reads _ _ mem := by cases mem
  parts _ _ _ mem := by cases mem

theorem heap (h : Sound p₀ p log) (x : List UInt8) : Sound p₀ p ((.heap x, x) :: log) where
  start := h.start
  stop := h.stop
  placed := h.placed
  bytes := h.bytes
  frame := h.frame
  reads w y mem := by
    rcases mem_cons.mp mem with new | old
    · cases new
      rfl
    · exact h.reads w y old
  parts s e y mem := by
    rcases mem_cons.mp mem with new | old
    · cases new
    · exact h.parts s e y old

theorem length_bytes (h : p.Placed) : p.bytes.length = p.stop - p.start := length_slice h.2

/-- The first frame: no wire lies in the buffer yet. -/
theorem framed (h : Sound p₀ p log) {start : Nat} (free : p.wireClaimed = false)
    (ahead : start + (frameFront c (p.stop - p.start)).length = p.start)
    (behind : p.stop + (frameBack c (p.stop - p.start)).length ≤ p.buf.length) :
    Sound p₀ (p.framed c start)
      ((.part start (p.stop + (frameBack c (p.stop - p.start)).length),
        serializeConsensusBlock c p₀.bytes) :: log) := by
  obtain ⟨ordered, inside⟩ := h.placed
  have length := length_bytes h.placed
  have block := serializeConsensusBlock_eq c p.bytes
  rw [length, h.bytes] at block
  rw [block, ← h.bytes]
  have first : start + (frameFront c (p.stop - p.start)).length ≤ p.buf.length := by omega
  have whole : 0 < (frameFront c (p.stop - p.start)).length := by
    simp only [frameFront, length_append, length_le32]
    omega
  unfold CandidatePayload.framed
  generalize frameFront c (p.stop - p.start) = front at *
  generalize frameBack c (p.stop - p.start) = back at *
  have same : (overwrite p.buf start front).length = p.buf.length := length_overwrite first
  have second : p.stop + back.length ≤ (overwrite p.buf start front).length := by
    rw [same]
    exact behind
  have payload : slice (overwrite (overwrite p.buf start front) p.stop back) p.start p.stop =
      p.bytes := by
    rw [slice_overwrite_of_disjoint (.inl (Nat.le_refl _)) second,
      slice_overwrite_of_disjoint (.inr (by omega)) first]
    rfl
  have all : (overwrite (overwrite p.buf start front) p.stop back).length = p.buf.length := by
    rw [length_overwrite second, same]
  have lead : slice (overwrite p.buf start front) start p.start = front := by
    have written := slice_overwrite_self first
    rwa [ahead] at written
  have noParts : ∀ s e x, (Wire.part s e, x) ∉ log := by
    intro s e x mem
    have claimed := (h.parts s e x mem).1
    rw [free] at claimed
    cases claimed
  refine ⟨h.start, h.stop, ⟨ordered, by rw [all]; exact inside⟩, payload.trans h.bytes, ?_, ?_, ?_⟩
  · rintro f ⟨⟩
    refine ⟨rfl, ?_, ?_, ?_, ?_⟩
    · change start < p.stop + back.length
      omega
    · change start ≤ p.start
      omega
    · exact Nat.le_add_right _ _
    · rw [all]
      exact behind
  · intro w x mem
    rcases mem_cons.mp mem with new | old
    · cases new
      change slice (overwrite (overwrite p.buf start front) p.stop back) start
        (p.stop + back.length) = _
      rw [← slice_append (j := p.stop) (by omega) (by omega) (by rw [all]; exact inside),
        ← slice_append (j := p.start) (by omega) ordered (by rw [all]; omega), payload,
        slice_overwrite_self second, slice_overwrite_of_disjoint (.inl ordered) second, lead]
    · cases w with
      | heap bytes => exact h.reads _ x old
      | part s e => exact absurd old (noParts s e x)
  · intro s e x mem
    rcases mem_cons.mp mem with new | old
    · cases new
      refine ⟨rfl, ?_⟩
      rintro f ⟨⟩
      exact ⟨Nat.le_refl _, Nat.le_refl _⟩
    · exact absurd old (noParts s e x)

/-- The wrapper around the frame: it is written outside of every wire. -/
theorem wrapped (h : Sound p₀ p log) {f : CandidateFrame} {delegation : List UInt8}
    (here : p.frame = some f) (ahead : 8 ≤ f.start)
    (behind : f.stop + delegation.length ≤ p.buf.length) :
    Sound p₀ (p.wrapped f delegation)
      ((.part (f.start - 8) (f.stop + delegation.length),
        wrapCopy (slice p.buf f.start f.stop) delegation) :: log) := by
  obtain ⟨claimed, nonempty, front, back, ends⟩ := h.frame f here
  obtain ⟨ordered, inside⟩ := h.placed
  have header : (le32 idCandidateWrapped ++ le32 1).length = 8 := by simp
  have copy : wrapCopy (slice p.buf f.start f.stop) delegation =
      le32 idCandidateWrapped ++ le32 1 ++ slice p.buf f.start f.stop ++ delegation := rfl
  rw [copy]
  unfold CandidatePayload.wrapped
  generalize le32 idCandidateWrapped ++ le32 1 = head at *
  have first : f.start - 8 + head.length ≤ p.buf.length := by omega
  have same : (overwrite p.buf (f.start - 8) head).length = p.buf.length := length_overwrite first
  have second : f.stop + delegation.length ≤ (overwrite p.buf (f.start - 8) head).length := by
    rw [same]
    exact behind
  have all : (overwrite (overwrite p.buf (f.start - 8) head) f.stop delegation).length =
      p.buf.length := by
    rw [length_overwrite second, same]
  have kept (s e : Nat) (le : f.start ≤ s) (ge : e ≤ f.stop) :
      slice (overwrite (overwrite p.buf (f.start - 8) head) f.stop delegation) s e =
        slice p.buf s e := by
    rw [slice_overwrite_of_disjoint (.inl ge) second,
      slice_overwrite_of_disjoint (.inr (by omega)) first]
  have lead : slice (overwrite p.buf (f.start - 8) head) (f.start - 8) f.start = head := by
    have written := slice_overwrite_self first
    have joined : f.start - 8 + head.length = f.start := by omega
    rwa [joined] at written
  refine ⟨h.start, h.stop, ⟨ordered, by rw [all]; exact inside⟩,
    (kept _ _ front back).trans h.bytes,
    ?_, ?_, ?_⟩
  · rintro f' ⟨⟩
  · intro w x mem
    rcases mem_cons.mp mem with new | old
    · cases new
      change slice (overwrite (overwrite p.buf (f.start - 8) head) f.stop delegation) (f.start - 8)
        (f.stop + delegation.length) = _
      rw [← slice_append (j := f.stop) (by omega) (by omega) (by rw [all]; exact ends),
        ← slice_append (j := f.start) (by omega) (by omega) (by rw [all]; omega),
        kept _ _ (Nat.le_refl _) (Nat.le_refl _), slice_overwrite_self second,
        slice_overwrite_of_disjoint (.inl (Nat.le_of_lt nonempty)) second, lead]
    · cases w with
      | heap bytes => exact h.reads _ x old
      | part s e =>
        obtain ⟨le, ge⟩ := (h.parts s e x old).2 f here
        exact (kept s e le ge).trans (h.reads _ x old)
  · intro s e x mem
    refine ⟨claimed, ?_⟩
    rintro f' ⟨⟩

/-- `serializeBlockCandidateWire` returns a wire unless the lengths cannot be framed. -/
theorem block (h : Sound p₀ p log) (c : Candidate) :
    (∃ p' w, p.serializeBlockCandidateWire c = .ok (p', w) ∧
      Sound p₀ p' ((w, serializeConsensusBlock c p₀.bytes) :: log)) ∨
    ¬ (p₀.stop - p₀.start < 2 ^ 32 ∧ c.signature.length < 2 ^ 32) ∧
      ∃ msg, p.serializeBlockCandidateWire c = .error (.error msg) := by
  unfold serializeBlockCandidateWire
  rw [← h.start, ← h.stop]
  by_cases small : p.stop - p.start < 2 ^ 32 ∧ c.signature.length < 2 ^ 32
  · left
    rcases wireInPlace_cases h.placed small.1 small.2 with
      ⟨refused, -⟩ | ⟨free, start, -, ahead, behind, written⟩
    · rw [refused]
      refine ⟨p, _, rfl, ?_⟩
      rw [h.bytes]
      exact h.heap _
    · rw [written]
      exact ⟨_, _, rfl, h.framed free ahead behind⟩
  · refine .inr ⟨small, ?_⟩
    unfold wireInPlace
    by_cases payload : p.stop - p.start < 2 ^ 32
    · obtain ⟨err, eq⟩ := tlBytesFraming_error fun signature => small ⟨payload, signature⟩
      rw [tlBytesFraming_eq payload, eq]
      exact ⟨_, rfl⟩
    · obtain ⟨err, eq⟩ := tlBytesFraming_error payload
      rw [eq]
      exact ⟨_, rfl⟩

theorem wrap (h : Sound p₀ p log) (wire : Wire) (delegation : List UInt8) :
    ∃ p' w, p.wrapFrame wire delegation = .ok (p', w) ∧
      Sound p₀ p' ((w, wrapCopy (wire.bytes p.buf) delegation) :: log) := by
  have inside : ∀ f, p.frame = some f → f.start < f.stop ∧ f.stop ≤ p.buf.length := by
    intro f hf
    obtain ⟨-, nonempty, -, -, ends⟩ := h.frame f hf
    exact ⟨nonempty, ends⟩
  unfold wrapFrame
  rcases wrapInPlace_cases wire delegation inside with
    refused | ⟨f, here, rfl, ahead, behind, written⟩
  · rw [refused]
    exact ⟨p, _, rfl, h.heap _⟩
  · rw [written]
    exact ⟨_, _, rfl, h.wrapped here ahead behind⟩

end Sound

theorem Served.sound (fresh : Fresh p₀) (h : Served p₀ p log) : Sound p₀ p log := by
  induction h with
  | fresh => exact .fresh fresh
  | wire c _ returned ih =>
    rcases ih.block c with ⟨p', w, eq, sound⟩ | ⟨-, msg, eq⟩
    · rw [returned] at eq
      cases eq
      exact sound
    · rw [returned] at eq
      cases eq
  | wrap wire delegation _ returned ih =>
    obtain ⟨p', w, eq, sound⟩ := ih.wrap wire delegation
    rw [returned] at eq
    cases eq
    exact sound

/-! ## The compressed payload -/

/-- The payload lies in its buffer as TL lays it out, with room for the frames on both sides. -/
theorem compress_spec {rootHash : List UInt8} {combined : Nat}
    {compressed : List UInt8} (hash : rootHash.length = 32) (fits : combined ≤ 2147483647)
    (small : compressed.length < 2 ^ 32) :
    ∃ p, compressCandidatePayload seqNo rootHash combined compressed = .ok p ∧ Fresh p ∧
      p.bytes = serializeCompressedCandidate seqNo rootHash combined compressed ∧
      104 ≤ p.start ∧ p.buf.length = p.stop + 256 := by
  have header : (TL.bytesHeader compressed.length).length ≤ 8 := by
    rw [TL.length_bytesHeader]
    split <;> [skip; split] <;> omega
  unfold compressCandidatePayload
  rw [if_neg (not_not.mpr hash), if_neg (Nat.not_lt.mpr fits), tlBytesFraming_eq small]
  dsimp only [Except.mapError, bind, Except.bind]
  generalize hs : candidatePayloadHeadroom - compressedCandidateHeaderBytes -
    (TL.bytesHeader compressed.length).length = start
  generalize hb : List.replicate (candidatePayloadHeadroom + compressed.length +
    TL.bytesPad compressed.length + candidatePayloadTailroom) (0 : UInt8) = buf
  have room : start + compressedCandidateHeaderBytes + (TL.bytesHeader compressed.length).length =
      192 := by
    unfold candidatePayloadHeadroom compressedCandidateHeaderBytes at *
    omega
  have length : buf.length = 192 + compressed.length + TL.bytesPad compressed.length + 256 := by
    rw [← hb, length_replicate]
    rfl
  unfold compressedCandidateHeaderBytes at room
  -- the fields one behind the other
  rw [putUint32_first (by omega)]
  simp (disch := (try simp only [length_append, length_replicate, length_le32, hash]) <;>
    omega) only [putUint32_append, clear_append, copyInto_append, putTLBytesHeader_append, hash]
  generalize hd : le32 idCompressedCandidate ++ le32 0 ++ List.replicate 32 0 ++ le32 seqNo ++
    rootHash ++ le32 (UInt32.ofNat combined) ++ TL.bytesHeader compressed.length ++ compressed ++
    List.replicate (TL.bytesPad compressed.length) 0 = data
  have stop : start + 4 + 4 + 32 + 4 + 32 + 4 + (TL.bytesHeader compressed.length).length +
      compressed.length + TL.bytesPad compressed.length = start + data.length := by
    simp only [← hd, length_append, length_replicate, length_le32, hash]
    omega
  have fit : start + data.length ≤ buf.length := by omega
  have same : (overwrite buf start data).length = buf.length := length_overwrite fit
  rw [stop]
  refine ⟨_, rfl, ⟨⟨?_, ?_⟩, rfl, rfl⟩, ?_, ?_, ?_⟩
  · dsimp only
    omega
  · dsimp only
    omega
  · unfold CandidatePayload.bytes
    rw [slice_overwrite_self fit, ← hd]
    simp only [serializeCompressedCandidate, TL.encodeBytes, append_assoc]
  · dsimp only
    omega
  · dsimp only
    omega

theorem compress_ok {rootHash : List UInt8} {combined : Nat} {compressed : List UInt8}
    (made : compressCandidatePayload seqNo rootHash combined compressed = .ok p₀) :
    Fresh p₀ ∧ p₀.bytes = serializeCompressedCandidate seqNo rootHash combined compressed ∧
      104 ≤ p₀.start ∧ p₀.buf.length = p₀.stop + 256 := by
  have hash : rootHash.length = 32 := by
    by_contra wrong
    unfold compressCandidatePayload at made
    rw [if_pos wrong] at made
    cases made
  have fits : combined ≤ 2147483647 := by
    by_contra large
    unfold compressCandidatePayload at made
    rw [if_neg (not_not.mpr hash), if_pos (Nat.not_le.mp large)] at made
    cases made
  have small : compressed.length < 2 ^ 32 := by
    by_contra large
    obtain ⟨err, eq⟩ := tlBytesFraming_error large
    unfold compressCandidatePayload at made
    rw [if_neg (not_not.mpr hash), if_neg (Nat.not_lt.mpr fits), eq] at made
    cases made
  obtain ⟨p, eq, spec⟩ := @compress_spec seqNo rootHash combined compressed hash fits small
  rw [made] at eq
  cases eq
  exact spec

theorem length_serializeParent (q : ParentID) : (serializeParent q).length ≤ 44 := by
  unfold serializeParent hashBytes
  split <;> simp

theorem length_frame (c : Candidate) (n : Nat) (signature : c.signature.length = 64) :
    (frameFront c n).length ≤ 60 ∧ (frameBack c n).length ≤ 71 := by
  have parent := length_serializeParent c.parent
  have header : (TL.bytesHeader n).length ≤ 8 := by
    rw [TL.length_bytesHeader]
    split <;> [skip; split] <;> omega
  have pad : TL.bytesPad n < 4 := Nat.mod_lt _ (by decide)
  have own : (TL.bytesHeader 64).length = 1 ∧ TL.bytesPad 64 = 3 := by decide
  constructor
  · simp [frameFront]
    omega
  · simp [frameBack, signature, own]
    omega

/-- The room a fresh payload keeps is enough for the frame of a signed candidate. -/
theorem first_frame_in_place {rootHash : List UInt8} {combined : Nat} {compressed : List UInt8}
    (made : compressCandidatePayload seqNo rootHash combined compressed = .ok p₀)
    (payload : p₀.stop - p₀.start < 2 ^ 32) (signature : c.signature.length = 64) :
    ∃ start stop, p₀.wireInPlace c = .ok (p₀.framed c start, some (.part start stop)) := by
  obtain ⟨fresh, -, ahead, behind⟩ := compress_ok made
  obtain ⟨front, back⟩ := length_frame c (p₀.stop - p₀.start) signature
  have short : c.signature.length < 2 ^ 32 := by
    rw [signature]
    decide
  rcases wireInPlace_cases fresh.placed payload short with
    ⟨-, small | small | claimed⟩ | ⟨-, start, -, -, -, eq⟩
  · omega
  · omega
  · rw [fresh.free] at claimed
    cases claimed
  · exact ⟨_, _, eq⟩

/-- Whatever calls a payload serves, each returned wire reads as the copy would, now and after
every later call. The payload itself stays as it was compressed, and no write panics. -/
theorem candidate_wires_equal_copies {seqNo : UInt32} {rootHash : List UInt8} {combined : Nat}
    {compressed : List UInt8} {p₀ : CandidatePayload} {log : List (Wire × List UInt8)}
    (made : compressCandidatePayload seqNo rootHash combined compressed = .ok p₀)
    (h : Served p₀ p log) :
    (∀ w x, (w, x) ∈ log → w.bytes p.buf = x) ∧
    p.bytes = serializeCompressedCandidate seqNo rootHash combined compressed ∧
    (∀ c, p.serializeBlockCandidateWire c ≠ .error .panic) ∧
    ∀ wire delegation, ∃ r, p.wrapFrame wire delegation = .ok r := by
  obtain ⟨fresh, bytes, -, -⟩ := compress_ok made
  have sound := h.sound fresh
  refine ⟨sound.reads, sound.bytes.trans bytes, fun c => ?_, fun wire delegation => ?_⟩
  · rcases sound.block c with ⟨p', w, eq, -⟩ | ⟨-, msg, eq⟩
    · rw [eq]
      intro panic
      cases panic
    · rw [eq]
      intro panic
      cases panic
  · obtain ⟨p', w, eq, -⟩ := sound.wrap wire delegation
    exact ⟨_, eq⟩

/-- A candidate for slot 3 with a 64-byte signature. -/
def smallCandidate : Candidate where
  id := ⟨3, 0⟩
  parent := parent ⟨2, 7⟩
  leader := 0
  empty := false
  block := ⟨0, 0, 1, List.replicate 32 1, List.replicate 32 2⟩
  collatedFileHash := 0
  signature := List.replicate 64 5
  delegation := none

/-- Three compressed bytes, framed and wrapped. -/
def smallRun :
    Except Fault (CandidatePayload × (CandidatePayload × Wire) × CandidatePayload × Wire) :=
  do
    let p₀ ← compressCandidatePayload 1 (List.replicate 32 9) 5 [1, 2, 3]
    let framed ← p₀.serializeBlockCandidateWire smallCandidate
    let wrapped ← framed.1.wrapFrame framed.2 [8, 8]
    return (p₀, framed, wrapped)

theorem first_frame_in_place_small : ∃ p₀ start stop,
    compressCandidatePayload 1 (List.replicate 32 9) 5 [1, 2, 3] = .ok p₀ ∧
      wireInPlace p₀ smallCandidate =
        .ok (p₀.framed smallCandidate start, some (.part start stop)) := by
  have size : (fun p => p.stop - p.start) <$> compressCandidatePayload 1 (List.replicate 32 9) 5
    [1, 2, 3] = .ok 84 := by decide +kernel
  obtain ⟨p₀, made, size⟩ := map_eq_ok.mp size
  obtain ⟨start, stop, eq⟩ := first_frame_in_place (c := smallCandidate) made (by omega) rfl
  exact ⟨p₀, start, stop, made, eq⟩

/-- The frame and the wrapper are both written in place and read as copies. -/
theorem candidate_wires_equal_copies_small :
    ∃ p₀ p₁ p₂, smallRun = .ok (p₀, (p₁, .part 58 266), p₂, .part 50 268) ∧
      slice p₂.buf 58 266 = serializeConsensusBlock smallCandidate p₀.bytes ∧
      slice p₂.buf 50 268 = wrapCopy (slice p₁.buf 58 266) [8, 8] := by
  have wires : (smallRun.map fun r => (r.2.1.2, r.2.2.2)) = .ok (.part 58 266, .part 50 268) := by
    decide +kernel
  cases run : smallRun with
  | error fault =>
    rw [run] at wires
    cases wires
  | ok r =>
    obtain ⟨p₀, ⟨p₁, w₁⟩, p₂, w₂⟩ := r
    rw [run] at wires
    cases wires
    obtain ⟨_, made, rest⟩ := bind_eq_ok.mp run
    obtain ⟨_, framed, rest⟩ := bind_eq_ok.mp rest
    obtain ⟨_, wrapped, rest⟩ := bind_eq_ok.mp rest
    cases rest
    have served := Served.wrap _ _ (Served.wire _ .fresh framed) wrapped
    obtain ⟨reads, -⟩ := candidate_wires_equal_copies made served
    exact ⟨p₀, p₁, p₂, rfl, reads _ _ (mem_cons_of_mem _ mem_cons_self),
      reads _ _ mem_cons_self⟩

end CandidatePayload

end Gton.Simplex
