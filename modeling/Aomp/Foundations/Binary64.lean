import Mathlib.Algebra.Order.Ring.Nat
import Mathlib.Data.Nat.Log
import Mathlib.Tactic

/-!
# Integers as binary64 numbers

A double is its 64-bit pattern. `ofInt` rounds an integer to the nearest double, ties to
even, and `truncate` is the integer part of a double. An integer comes back unchanged
if and only if it has at most 53 significant bits.
-/
namespace Aomp.Foundations.Binary64

variable {n s : ℕ}

/-- At most 53 significant bits. -/
def Fits (n : ℕ) : Prop := ∃ e, 2 ^ e ∣ n ∧ n < 2 ^ (e + 53)

/-- `n / 2 ^ s` rounded to the nearest integer, ties to even. -/
def quotEven (n s : ℕ) : ℕ :=
  if 2 * (n % 2 ^ s) < 2 ^ s ∨ 2 * (n % 2 ^ s) = 2 ^ s ∧ n / 2 ^ s % 2 = 0 then n / 2 ^ s
  else n / 2 ^ s + 1

/-- `n` rounded to 53 significant bits. -/
def round (n : ℕ) : ℕ :=
  if n.log2 ≤ 52 then n else quotEven n (n.log2 - 52) * 2 ^ (n.log2 - 52)

theorem quotEven_of_dvd (h : 2 ^ s ∣ n) : quotEven n s = n / 2 ^ s := by
  have hpos : 0 < 2 ^ s := by positivity
  unfold quotEven
  rw [Nat.mod_eq_zero_of_dvd h]
  exact if_pos (.inl (by omega))

theorem quotEven_bounds (n s : ℕ) : n / 2 ^ s ≤ quotEven n s ∧ quotEven n s ≤ n / 2 ^ s + 1 := by
  unfold quotEven
  split_ifs <;> omega

theorem lt_two_pow_log2_succ (n : ℕ) : n < 2 ^ (n.log2 + 1) := Nat.lt_log2_self

/-- Rounding keeps exactly the integers with at most 53 significant bits. -/
theorem round_eq_self_iff : round n = n ↔ Fits n := by
  unfold round
  split_ifs with hlog
  · refine iff_of_true rfl ⟨0, by simp, (lt_two_pow_log2_succ n).trans_le ?_⟩
    exact Nat.pow_le_pow_right (by omega) (by omega)
  · constructor
    · intro h
      refine ⟨n.log2 - 52, Dvd.intro_left _ h, (lt_two_pow_log2_succ n).trans_le ?_⟩
      exact Nat.pow_le_pow_right (by omega) (by omega)
    · rintro ⟨e, hdvd, hlt⟩
      have hn : n ≠ 0 := by
        rintro rfl
        simp at hlog
      have hle : n.log2 < e + 53 := (Nat.log2_lt hn).mpr hlt
      have hdvd' : 2 ^ (n.log2 - 52) ∣ n := (Nat.pow_dvd_pow 2 (by omega)).trans hdvd
      rw [quotEven_of_dvd hdvd', Nat.div_mul_cancel hdvd']

instance (n : ℕ) : Decidable (Fits n) := decidable_of_iff _ round_eq_self_iff

/-- The pattern of the double nearest to `n`. A quotient of `2 ^ 53` carries into the
exponent. -/
def encode (n : ℕ) : ℕ :=
  if n = 0 then 0
  else if n.log2 ≤ 52 then (n.log2 + 1023) * 2 ^ 52 + (n * 2 ^ (52 - n.log2) - 2 ^ 52)
  else (n.log2 + 1023) * 2 ^ 52 + (quotEven n (n.log2 - 52) - 2 ^ 52)

/-- The integer part of the magnitude with pattern `p`, `none` for infinity and NaN. -/
def decode (p : ℕ) : Option ℕ :=
  if p / 2 ^ 52 = 2047 then none
  else if p / 2 ^ 52 = 0 then some 0
  else if 1075 ≤ p / 2 ^ 52 then some ((2 ^ 52 + p % 2 ^ 52) * 2 ^ (p / 2 ^ 52 - 1075))
  else some ((2 ^ 52 + p % 2 ^ 52) / 2 ^ (1075 - p / 2 ^ 52))

theorem decode_fields {e f : ℕ} (hf : f < 2 ^ 52) (he : e ≠ 2047) (hpos : e ≠ 0) :
    decode (e * 2 ^ 52 + f) = some (if 1075 ≤ e then (2 ^ 52 + f) * 2 ^ (e - 1075)
      else (2 ^ 52 + f) / 2 ^ (1075 - e)) := by
  have hdiv : (e * 2 ^ 52 + f) / 2 ^ 52 = e := by omega
  have hmod : (e * 2 ^ 52 + f) % 2 ^ 52 = f := by omega
  unfold decode
  rw [hdiv, hmod, if_neg he, if_neg hpos]
  split_ifs <;> rfl

/-- The quotient of a large integer has 53 bits, or is the power of two after them. -/
theorem quotEven_range (h : 52 < n.log2) :
    2 ^ 52 ≤ quotEven n (n.log2 - 52) ∧ quotEven n (n.log2 - 52) ≤ 2 ^ 53 := by
  have hn : n ≠ 0 := by
    rintro rfl
    simp at h
  have hb := quotEven_bounds n (n.log2 - 52)
  have hpos : 0 < 2 ^ (n.log2 - 52) := by positivity
  have hlow : 2 ^ 52 ≤ n / 2 ^ (n.log2 - 52) := by
    rw [Nat.le_div_iff_mul_le hpos, ← pow_add, show 52 + (n.log2 - 52) = n.log2 from by omega]
    exact Nat.log2_self_le hn
  have hhigh : n / 2 ^ (n.log2 - 52) < 2 ^ 53 := by
    rw [Nat.div_lt_iff_lt_mul hpos, ← pow_add,
      show 53 + (n.log2 - 52) = n.log2 + 1 from by omega]
    exact lt_two_pow_log2_succ n
  omega

theorem decode_encode (h : n.log2 < 900) : decode (encode n) = some (round n) := by
  unfold encode round
  by_cases hn : n = 0
  · subst hn
    rfl
  rw [if_neg hn]
  have hlow := Nat.log2_self_le hn
  have hhigh := lt_two_pow_log2_succ n
  by_cases hlog : n.log2 ≤ 52
  · rw [if_pos hlog, if_pos hlog]
    have hscale : 2 ^ 52 ≤ n * 2 ^ (52 - n.log2) ∧ n * 2 ^ (52 - n.log2) < 2 ^ 53 := by
      have h52 : 2 ^ n.log2 * 2 ^ (52 - n.log2) = 2 ^ 52 := by
        rw [← pow_add]
        congr 1
        omega
      have h53 : 2 ^ (n.log2 + 1) * 2 ^ (52 - n.log2) = 2 ^ 53 := by
        rw [← pow_add]
        congr 1
        omega
      rw [← h52, ← h53]
      exact ⟨Nat.mul_le_mul_right _ hlow, Nat.mul_lt_mul_of_pos_right hhigh (by positivity)⟩
    rw [decode_fields (by omega) (by omega) (by omega),
      show 2 ^ 52 + (n * 2 ^ (52 - n.log2) - 2 ^ 52) = n * 2 ^ (52 - n.log2) from by omega]
    split_ifs with hbig
    · rw [show 52 - n.log2 = 0 from by omega, show n.log2 + 1023 - 1075 = 0 from by omega]
      simp
    · rw [show 1075 - (n.log2 + 1023) = 52 - n.log2 from by omega]
      rw [Nat.mul_div_cancel _ (by positivity)]
  · rw [if_neg hlog, if_neg hlog]
    obtain ⟨hq, hq'⟩ := quotEven_range (not_le.mp hlog)
    rcases hq'.lt_or_eq with hlt | heq
    · rw [decode_fields (by omega) (by omega) (by omega), if_pos (by omega),
        show 2 ^ 52 + (quotEven n (n.log2 - 52) - 2 ^ 52) = quotEven n (n.log2 - 52) from by omega,
        show n.log2 + 1023 - 1075 = n.log2 - 52 from by omega]
    · have hcarry : (n.log2 + 1023) * 2 ^ 52 + (quotEven n (n.log2 - 52) - 2 ^ 52) =
          (n.log2 + 1024) * 2 ^ 52 + 0 := by omega
      rw [hcarry, decode_fields (by omega) (by omega) (by omega), if_pos (by omega), heq,
        show n.log2 + 1024 - 1075 = n.log2 - 52 + 1 from by omega, pow_succ]
      ring_nf

theorem encode_lt (h : n.log2 < 900) : encode n < 2 ^ 63 := by
  unfold encode
  split_ifs with hn hlog
  · omega
  · have hhigh := lt_two_pow_log2_succ n
    have h53 : n * 2 ^ (52 - n.log2) < 2 ^ 53 := by
      calc n * 2 ^ (52 - n.log2) < 2 ^ (n.log2 + 1) * 2 ^ (52 - n.log2) :=
            Nat.mul_lt_mul_of_pos_right hhigh (by positivity)
        _ = 2 ^ 53 := by
            rw [← pow_add]
            congr 1
            omega
    omega
  · have := (quotEven_range (not_le.mp hlog)).2
    omega

def ofInt (z : ℤ) : BitVec 64 :=
  BitVec.ofNat 64 ((if z < 0 then 2 ^ 63 else 0) + encode z.natAbs)

/-- The integer part of a double, `none` for infinity and NaN. -/
def truncate (d : BitVec 64) : Option ℤ :=
  (decode (d.toNat % 2 ^ 63)).map fun n : ℕ => if 2 ^ 63 ≤ d.toNat then -(n : ℤ) else n

def roundInt (z : ℤ) : ℤ := if z < 0 then -(round z.natAbs : ℤ) else round z.natAbs

theorem truncate_ofInt {z : ℤ} (h : z.natAbs.log2 < 900) : truncate (ofInt z) = some (roundInt z) := by
  have hlt := encode_lt h
  unfold truncate ofInt roundInt
  rw [BitVec.toNat_ofNat]
  by_cases hz : z < 0
  · rw [if_pos hz, if_pos hz,
      show (2 ^ 63 + encode z.natAbs) % 2 ^ 64 = 2 ^ 63 + encode z.natAbs from by omega,
      show (2 ^ 63 + encode z.natAbs) % 2 ^ 63 = encode z.natAbs from by omega, decode_encode h,
      Option.map_some, if_pos (by omega)]
  · rw [if_neg hz, if_neg hz, show (0 + encode z.natAbs) % 2 ^ 64 = encode z.natAbs from by omega,
      show encode z.natAbs % 2 ^ 63 = encode z.natAbs from by omega, decode_encode h,
      Option.map_some, if_neg (by omega)]

theorem roundInt_eq_self_iff {z : ℤ} : roundInt z = z ↔ Fits z.natAbs := by
  rw [← round_eq_self_iff]
  unfold roundInt
  split_ifs <;> omega

end Aomp.Foundations.Binary64
