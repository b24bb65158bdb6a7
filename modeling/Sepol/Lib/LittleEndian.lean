import Mathlib

/-!
# Little-endian numbers

A list of bytes read as a number, least significant byte first, and the bytes of a number in a given width.
-/

namespace LittleEndian

/-- The number that a list of bytes stands for. -/
def ofBytes (buf : List (BitVec 8)) : Nat := buf.foldr (fun b n => b.toNat + 256 * n) 0

/-- The `width` low bytes of a number. -/
def toBytes : Nat → Nat → List (BitVec 8)
  | 0, _ => []
  | width + 1, n => BitVec.ofNat 8 n :: toBytes width (n / 256)

@[simp] theorem length_toBytes (width n : Nat) : (toBytes width n).length = width := by
  induction width generalizing n with
  | zero => rfl
  | succ width ih => rw [toBytes, List.length_cons, ih]

theorem ofBytes_cons (b : BitVec 8) (buf : List (BitVec 8)) : ofBytes (b :: buf) = b.toNat + 256 * ofBytes buf := rfl

theorem ofBytes_lt (buf : List (BitVec 8)) : ofBytes buf < 256 ^ buf.length := by
  induction buf with
  | nil => exact Nat.one_pos
  | cons b buf ih =>
    have hb := b.isLt
    rw [ofBytes_cons, List.length_cons, Nat.pow_succ]
    omega

/-- A number that fits is read back. -/
theorem ofBytes_toBytes {width n : Nat} (h : n < 256 ^ width) : ofBytes (toBytes width n) = n := by
  induction width generalizing n with
  | zero => exact (Nat.lt_one_iff.1 h).symm
  | succ width ih =>
    rw [Nat.pow_succ] at h
    rw [toBytes, ofBytes_cons, ih (Nat.div_lt_of_lt_mul (by omega)), BitVec.toNat_ofNat]
    omega

/-- Bytes that were read are written back. -/
theorem toBytes_ofBytes (buf : List (BitVec 8)) : toBytes buf.length (ofBytes buf) = buf := by
  induction buf with
  | nil => rfl
  | cons b buf ih =>
    have hb := b.isLt
    have hlow : BitVec.ofNat 8 (b.toNat + 256 * ofBytes buf) = b := by
      apply BitVec.eq_of_toNat_eq
      rw [BitVec.toNat_ofNat]
      omega
    rw [List.length_cons, toBytes, ofBytes_cons, hlow,
      show (b.toNat + 256 * ofBytes buf) / 256 = ofBytes buf by omega,
      ih]

end LittleEndian
