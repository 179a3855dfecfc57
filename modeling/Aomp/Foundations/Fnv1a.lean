import Aomp.Foundations.Bytes

/-!
# FNV-1a

The Fowler-Noll-Vo hash takes in one byte after the other: the byte is added to the low bits without
carry, and the sum is multiplied by a prime modulo a power of two. Signed words that wrap around track
it, as they have the same bits.
-/

namespace Aomp.Foundations.Fnv1a

variable {w prime offset h : ℕ} {b : Byte} {bytes : List Byte}

def absorb (w prime h : ℕ) (b : Byte) : ℕ := ((h ^^^ b.toNat) * prime) % 2 ^ w

def hash (w offset prime : ℕ) (bytes : List Byte) : ℕ := bytes.foldl (absorb w prime) offset

@[simp] theorem hash_nil : hash w offset prime [] = offset := rfl

theorem hash_append (later : List Byte) :
    hash w offset prime (bytes ++ later) = hash w (hash w offset prime bytes) prime later :=
  List.foldl_append

theorem absorb_toNat (hw : 8 ≤ w) (x : BitVec w) :
    absorb w prime x.toNat b = ((x ^^^ b.setWidth w) * BitVec.ofNat w prime).toNat := by
  have hbyte : b.toNat % 2 ^ w = b.toNat :=
    Nat.mod_eq_of_lt (lt_of_lt_of_le b.isLt (Nat.pow_le_pow_right (by omega) hw))
  rw [absorb, BitVec.toNat_mul, BitVec.toNat_xor, BitVec.toNat_setWidth, hbyte, BitVec.toNat_ofNat,
    Nat.mul_mod_mod]

/-- The product of signed words wraps around to the product of their bits. -/
theorem ofInt_bmod_mul (i j : ℤ) :
    BitVec.ofInt w ((i * j).bmod (2 ^ w)) = BitVec.ofInt w i * BitVec.ofInt w j := by
  rw [← BitVec.toInt_ofInt, BitVec.ofInt_toInt, BitVec.ofInt_mul]

theorem ofInt_bmod_natCast (n : ℕ) : BitVec.ofInt w ((n : ℤ).bmod (2 ^ w)) = BitVec.ofNat w n := by
  rw [← BitVec.toInt_ofInt, BitVec.ofInt_toInt, BitVec.ofInt_natCast]

def hexField (n width : ℕ) : List Char := (Nat.toDigits 16 n).leftpad width '0'

/-- The digits fill the field alone when the number is large enough. -/
theorem toDigits_eq_hexField (n width : ℕ) :
    Nat.toDigits 16 n = hexField n (width + 1) ↔ width = 0 ∨ 16 ^ width ≤ n := by
  have hlength : (Nat.toDigits 16 n).length ≤ width ↔ width ≠ 0 ∧ n < 16 ^ width := by
    by_cases hzero : width = 0
    · have hpos : 0 < (Nat.toDigits 16 n).length := Nat.length_toDigits_pos
      omega
    · rw [Nat.length_toDigits_le_iff (by norm_num) (by omega)]
      simp [hzero]
  rw [hexField, List.leftpad]
  constructor
  · intro h
    have hsame := congrArg List.length h
    rw [List.length_append, List.length_replicate] at hsame
    by_contra hsmall
    have hle := hlength.mpr (by omega)
    omega
  · intro hlarge
    have hgt : ¬ (Nat.toDigits 16 n).length ≤ width := by
      rw [hlength]
      omega
    rw [Nat.sub_eq_zero_of_le (by omega), List.replicate_zero, List.nil_append]

end Aomp.Foundations.Fnv1a
