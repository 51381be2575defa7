import Mathlib.Data.List.TakeDrop
import Mathlib.Data.Nat.Bitwise

/-!
# Byte buffers and TL byte strings

Slices of a buffer, writes into it, and the layout TL gives a field of type `bytes`.
-/

namespace Gton.Bytes

open List

/-- `buf[i:j]` -/
def slice (buf : List UInt8) (i j : Nat) : List UInt8 := (buf.take j).drop i

/-- `buf` with `data` written over it from index `i` on. -/
def overwrite (buf : List UInt8) (i : Nat) (data : List UInt8) : List UInt8 :=
  buf.take i ++ data ++ buf.drop (i + data.length)

variable {buf a b data : List UInt8} {i j k : Nat}

theorem getElem?_slice (n : Nat) :
    (slice buf i j)[n]? = if i + n < j then buf[i + n]? else none := by
  unfold slice
  rw [getElem?_drop, List.getElem?_take]

theorem getElem?_overwrite (fits : i + data.length ≤ buf.length) (n : Nat) :
    (overwrite buf i data)[n]? =
      if n < i then buf[n]? else if n < i + data.length then data[n - i]? else buf[n]? := by
  unfold overwrite
  grind

theorem length_slice (le : j ≤ buf.length) : (slice buf i j).length = j - i := by
  simp [slice, Nat.min_eq_left le]

theorem slice_append (ij : i ≤ j) (jk : j ≤ k) (le : j ≤ buf.length) :
    slice buf i j ++ slice buf j k = slice buf i k := by
  apply ext_getElem?
  intro n
  rw [getElem?_append, length_slice le, getElem?_slice, getElem?_slice, getElem?_slice]
  grind

theorem length_overwrite (fits : i + data.length ≤ buf.length) :
    (overwrite buf i data).length = buf.length := by
  simp [overwrite]
  omega

@[simp] theorem overwrite_nil (buf : List UInt8) (i : Nat) : overwrite buf i [] = buf := by
  simp [overwrite]

theorem overwrite_overwrite (fits : i + a.length + b.length ≤ buf.length) :
    overwrite (overwrite buf i a) (i + a.length) b = overwrite buf i (a ++ b) := by
  have first : i + a.length ≤ buf.length := by omega
  have both : i + (a ++ b).length ≤ buf.length := by
    rw [length_append]
    omega
  apply ext_getElem?
  intro n
  rw [getElem?_overwrite (by rw [length_overwrite first]; exact fits), getElem?_overwrite first,
    getElem?_overwrite both, getElem?_append, length_append]
  grind

theorem slice_overwrite_self (fits : i + data.length ≤ buf.length) :
    slice (overwrite buf i data) i (i + data.length) = data := by
  apply ext_getElem?
  intro n
  rw [getElem?_slice, getElem?_overwrite fits]
  grind

theorem slice_overwrite_of_disjoint (apart : j ≤ i ∨ i + data.length ≤ k)
    (fits : i + data.length ≤ buf.length) : slice (overwrite buf i data) k j = slice buf k j := by
  apply ext_getElem?
  intro n
  rw [getElem?_slice, getElem?_slice, getElem?_overwrite fits]
  grind

/-- The `k` lowest bytes of `n`, the lowest one first. -/
def leBytes : Nat → Nat → List UInt8
  | 0, _ => []
  | k + 1, n => UInt8.ofNat n :: leBytes k (n / 256)

@[simp] theorem length_leBytes (k n : Nat) : (leBytes k n).length = k := by
  induction k generalizing n with
  | zero => rfl
  | succ k ih => rw [leBytes, length_cons, ih]

def le32 (v : UInt32) : List UInt8 := leBytes 4 v.toNat

@[simp] theorem length_le32 (v : UInt32) : (le32 v).length = 4 := length_leBytes _ _

theorem leBytes_zero (k : Nat) : leBytes k 0 = List.replicate k 0 := by
  induction k with
  | zero => rfl
  | succ k ih =>
    rw [leBytes, Nat.zero_div, ih]
    rfl

theorem leBytes_add (j k n : Nat) : leBytes (j + k) n = leBytes j n ++ leBytes k (n / 256 ^ j) := by
  induction j generalizing n with
  | zero => rw [Nat.zero_add, Nat.pow_zero, Nat.div_one, leBytes, nil_append]
  | succ j ih =>
    rw [Nat.succ_add, leBytes, leBytes, ih, cons_append, Nat.div_div_eq_div_mul,
      Nat.pow_succ, Nat.mul_comm 256]

end Gton.Bytes

namespace Gton.TL

open Bytes

/-- The length in front of a field of type `bytes`: one byte below 254, else a marker with the
length in three or seven bytes. -/
def bytesHeader (n : Nat) : List UInt8 :=
  if n < 254 then [UInt8.ofNat n]
  else if n < 2 ^ 24 then 254 :: leBytes 3 n
  else 255 :: leBytes 7 n

/-- The zeros behind a field of type `bytes`, up to a multiple of four. -/
def bytesPad (n : Nat) : Nat := (4 - ((bytesHeader n).length + n) % 4) % 4

def encodeBytes (data : List UInt8) : List UInt8 :=
  bytesHeader data.length ++ data ++ List.replicate (bytesPad data.length) 0

theorem length_bytesHeader (n : Nat) :
    (bytesHeader n).length = if n < 254 then 1 else if n < 2 ^ 24 then 4 else 8 := by
  unfold bytesHeader
  split
  · rfl
  · split
    · simp
    · simp

theorem le32_marked {n : Nat} (small : n < 2 ^ 24) :
    le32 (UInt32.ofNat n <<< 8 ||| 254) = 254 :: leBytes 3 n := by
  have value : (UInt32.ofNat n <<< 8 ||| 254).toNat = n * 256 + 254 := by
    have word : (UInt32.ofNat n).toNat = n :=
      UInt32.toNat_ofNat_of_lt' (by simp [UInt32.size]; omega)
    have shifted : (UInt32.ofNat n <<< 8).toNat = n <<< 8 := by
      rw [UInt32.toNat_shiftLeft, word]
      exact Nat.mod_eq_of_lt (by simp [Nat.shiftLeft_eq]; omega)
    rw [UInt32.toNat_or, shifted]
    change n <<< 8 ||| 254 = _
    rw [← Nat.shiftLeft_add_eq_or_of_lt (by decide), Nat.shiftLeft_eq]
  have low : UInt8.ofNat (n * 256 + 254) = 254 := by
    apply UInt8.toNat_inj.mp
    simp
  have high : (n * 256 + 254) / 256 = n := by omega
  unfold le32
  rw [value, leBytes, low, high]

theorem leBytes_seven {n : Nat} (small : n < 2 ^ 32) :
    leBytes 7 n = le32 (UInt32.ofNat n) ++ [0, 0, 0] := by
  have word : (UInt32.ofNat n).toNat = n := UInt32.toNat_ofNat_of_lt' small
  have high : n / 256 ^ 4 = 0 := Nat.div_eq_of_lt small
  rw [leBytes_add 4 3, high, leBytes_zero, le32, word]
  rfl

end Gton.TL
