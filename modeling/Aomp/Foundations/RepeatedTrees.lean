import Mathlib.Data.Nat.Choose.Basic
import Mathlib.Data.Nat.Digits.Defs
import Mathlib.Data.Nat.Size
import Aomp.Foundations.TreeReduction

/-!
# Trees over slots that are only partly written again

A tree reduction in place leaves partial results in its slots. Where it is repeated and only
the slots below a power of two are filled again each time, the other slots carry what they
held before the first tree from one tree to the next. How often a tree takes such a slot in
depends on the tree and on the one bits of the number of the slot.
-/
namespace Aomp.Foundations

variable {T : Type*} {op : T → T → T} {g : ℕ → T} {n p i : ℕ}

/-- What slot `i` holds after the rounds with offsets down to `off`. The round `2 ^ i.size`
is the first one that leaves the slot as it is. -/
def roundSlots (op : T → T → T) (width : ℕ) (g : ℕ → T) (off i : ℕ) : T :=
  pairTree op width g (max off (2 ^ i.size)) i

theorem roundSlots_of_le {width off : ℕ} (h : width ≤ off) : roundSlots op width g off i = g i :=
  pairTree_of_le (h.trans (le_max_left _ _))

theorem inPlaceRound_roundSlots (h : i < n) :
    inPlaceRound op (2 ^ i) (roundSlots op (2 ^ n) g (2 * 2 ^ i)) = roundSlots op (2 ^ n) g (2 ^ i) := by
  have hdouble : 2 * 2 ^ i = 2 ^ (i + 1) := by ring
  funext j
  unfold inPlaceRound roundSlots
  by_cases hj : j < 2 ^ i
  · have hsize : 2 ^ j.size ≤ 2 ^ i := Nat.pow_le_pow_right (by omega) (Nat.size_le.mpr hj)
    have hupper : 2 ^ (j + 2 ^ i).size ≤ 2 * 2 ^ i := by
      rw [hdouble]
      exact Nat.pow_le_pow_right (by omega) (Nat.size_le.mpr (by omega))
    have hlt : 2 ^ i < 2 ^ n := Nat.pow_lt_pow_right (by omega) h
    rw [if_pos hj, max_eq_left hupper, max_eq_left (by omega), max_eq_left hsize,
      pairTree_of_lt (by positivity) hlt]
  · have hsize : 2 * 2 ^ i ≤ 2 ^ j.size := by
      rw [hdouble]
      exact Nat.pow_le_pow_right (by omega) (Nat.lt_size.mpr (by omega))
    rw [if_neg hj, max_eq_right hsize, max_eq_right (by omega)]

def ones (a : ℕ) : ℕ := (Nat.digits 2 a).sum

theorem ones_eq (a : ℕ) : ones a = a % 2 + ones (a / 2) := by
  unfold ones
  rcases Nat.eq_zero_or_pos a with rfl | ha
  · rfl
  · rw [Nat.digits_def' (by omega) ha, List.sum_cons]

theorem ones_zero : ones 0 = 0 := rfl

theorem ones_two_pow_add {k a : ℕ} (h : a < 2 ^ k) : ones (2 ^ k + a) = ones a + 1 := by
  induction k generalizing a with
  | zero =>
    obtain rfl : a = 0 := by simpa using h
    rw [ones_eq]
    rfl
  | succ k ih =>
    have hmod : (2 ^ (k + 1) + a) % 2 = a % 2 := by omega
    have hdiv : (2 ^ (k + 1) + a) / 2 = 2 ^ k + a / 2 := by omega
    rw [ones_eq, hmod, hdiv, ih (by omega), ones_eq a, Nat.add_assoc]

theorem ones_pos {a : ℕ} (h : 0 < a) : 0 < ones a := by
  induction a using Nat.strongRecOn with
  | _ a ih =>
    rw [ones_eq]
    by_cases hhalf : a / 2 = 0
    · have : a = 1 := by omega
      omega
    · have := ih (a / 2) (by omega) (by omega)
      omega

/-- The one bits of a slot in the upper half of `2 ^ (n + 1)` slots. -/
theorem ones_upper (hpn : p ≤ n) (h : i < 2 ^ n) :
    ones ((2 ^ n + i) / 2 ^ p) = ones (i / 2 ^ p) + 1 := by
  have hsplit : 2 ^ n = 2 ^ p * 2 ^ (n - p) := by rw [← pow_add, Nat.add_sub_cancel' hpn]
  have hdiv : (2 ^ n + i) / 2 ^ p = 2 ^ (n - p) + i / 2 ^ p := by
    rw [hsplit, Nat.mul_add_div (by positivity)]
  have hlt : i / 2 ^ p < 2 ^ (n - p) := by
    rw [Nat.div_lt_iff_lt_mul (by positivity), mul_comm, ← hsplit]
    exact h
  rw [hdiv, ones_two_pow_add hlt]

/-- The first round of a tree folds the upper half of the slots onto the lower one. -/
theorem pairTree_double {off m : ℕ} (hi : i < off) :
    pairTree op (2 * (off * 2 ^ m)) g off i =
      pairTree op (off * 2 ^ m) (inPlaceRound op (off * 2 ^ m) g) off i := by
  induction m generalizing off i with
  | zero =>
    rw [pow_zero, mul_one, pairTree_of_lt (by omega) (by omega), pairTree_of_le le_rfl,
      pairTree_of_le le_rfl, pairTree_of_le le_rfl, inPlaceRound, if_pos hi]
  | succ m ih =>
    have hwidth : off * 2 ^ (m + 1) = 2 * off * 2 ^ m := by ring
    have hlt : off < 2 * off * 2 ^ m := by
      have := Nat.one_le_two_pow (n := m)
      nlinarith
    rw [hwidth, pairTree_of_lt (by omega) (by omega), pairTree_of_lt (by omega) hlt, ih (by omega),
      ih (by omega)]

theorem roundSlots_lower (h : i < 2 ^ n) : roundSlots op (2 ^ (n + 1)) g 1 i =
    roundSlots op (2 ^ n) (inPlaceRound op (2 ^ n) g) 1 i := by
  have hsize : i.size ≤ n := Nat.size_le.mpr h
  have hwidth : 2 ^ n = 2 ^ i.size * 2 ^ (n - i.size) := by rw [← pow_add, Nat.add_sub_cancel' hsize]
  have hdouble : 2 ^ (n + 1) = 2 * (2 ^ i.size * 2 ^ (n - i.size)) := by rw [pow_succ, mul_comm, hwidth]
  unfold roundSlots
  rw [max_eq_right Nat.one_le_two_pow, hdouble, pairTree_double (Nat.lt_size_self i), ← hwidth]

theorem roundSlots_upper : roundSlots op (2 ^ (n + 1)) g 1 (2 ^ n + i) = g (2 ^ n + i) := by
  apply pairTree_of_le
  refine le_trans ?_ (le_max_right _ _)
  exact Nat.pow_le_pow_right (by omega) (Nat.lt_size.mpr (Nat.le_add_right _ _))

/-- Where the slots after a tree count by their one bits from `2 ^ p` on, the slots before it
count as often as all shorter numbers of one bits together. -/
theorem prod_roundSlots_pow [CommMonoid T] {f : ℕ → ℕ} (hf : f 0 = 0) (hpn : p ≤ n) (g : ℕ → T) :
    ∏ i ∈ Finset.range (2 ^ n), roundSlots (· * ·) (2 ^ n) g 1 i ^ f (ones (i / 2 ^ p)) =
      ∏ i ∈ Finset.range (2 ^ n), g i ^ ∑ q ∈ Finset.range (ones (i / 2 ^ p)), f (q + 1) := by
  induction n, hpn using Nat.le_induction generalizing g with
  | base =>
    apply Finset.prod_congr rfl
    intro i hi
    rw [Nat.div_eq_of_lt (Finset.mem_range.mp hi), ones_zero, hf, Finset.sum_range_zero, pow_zero,
      pow_zero]
  | succ n hpn ih =>
    have hlower : ∏ i ∈ Finset.range (2 ^ n), roundSlots (· * ·) (2 ^ (n + 1)) g 1 i ^ f (ones (i / 2 ^ p)) =
        ∏ i ∈ Finset.range (2 ^ n),
          (g i * g (i + 2 ^ n)) ^ ∑ q ∈ Finset.range (ones (i / 2 ^ p)), f (q + 1) := by
      calc _ = ∏ i ∈ Finset.range (2 ^ n),
            roundSlots (· * ·) (2 ^ n) (inPlaceRound (· * ·) (2 ^ n) g) 1 i ^ f (ones (i / 2 ^ p)) :=
          Finset.prod_congr rfl fun i hi => by rw [roundSlots_lower (Finset.mem_range.mp hi)]
        _ = _ := ih _
        _ = _ := Finset.prod_congr rfl fun i hi => by rw [inPlaceRound, if_pos (Finset.mem_range.mp hi)]
    have hupper : ∏ i ∈ Finset.range (2 ^ n),
        roundSlots (· * ·) (2 ^ (n + 1)) g 1 (2 ^ n + i) ^ f (ones ((2 ^ n + i) / 2 ^ p)) =
          ∏ i ∈ Finset.range (2 ^ n), g (i + 2 ^ n) ^ f (ones (i / 2 ^ p) + 1) := by
      apply Finset.prod_congr rfl
      intro i hi
      rw [roundSlots_upper, ones_upper hpn (Finset.mem_range.mp hi), Nat.add_comm]
    rw [show 2 ^ (n + 1) = 2 ^ n + 2 ^ n from by ring, Finset.prod_range_add, Finset.prod_range_add,
      ← show 2 ^ (n + 1) = 2 ^ n + 2 ^ n from by ring, hlower, hupper, ← Finset.prod_mul_distrib,
      ← Finset.prod_mul_distrib]
    apply Finset.prod_congr rfl
    intro i hi
    rw [ones_upper hpn (Finset.mem_range.mp hi), Finset.sum_range_succ, pow_add, mul_pow, mul_assoc,
      Nat.add_comm (2 ^ n) i]

/-- The number of multisets of `k` out of `b` one bits. Slots without one bits do not count. -/
def slotWeight (k b : ℕ) : ℕ := if b = 0 then 0 else Nat.multichoose b k

theorem slotWeight_zero (k : ℕ) : slotWeight k 0 = 0 := rfl

theorem slotWeight_of_pos {b : ℕ} (h : 0 < b) (k : ℕ) : slotWeight k b = Nat.multichoose b k :=
  if_neg (by omega)

theorem sum_slotWeight (b k : ℕ) :
    ∑ q ∈ Finset.range b, slotWeight k (q + 1) = slotWeight (k + 1) b := by
  induction b with
  | zero => rfl
  | succ b ih =>
    rw [Finset.sum_range_succ, ih, slotWeight_of_pos (Nat.succ_pos b),
      slotWeight_of_pos (Nat.succ_pos b),
      Nat.multichoose_succ_succ]
    rcases Nat.eq_zero_or_pos b with rfl | hb
    · simp [slotWeight_zero]
    · rw [slotWeight_of_pos hb]

theorem prod_roundSlots_weight [CommMonoid T] (k : ℕ) (hpn : p ≤ n) (g : ℕ → T) :
    ∏ i ∈ Finset.range (2 ^ n), roundSlots (· * ·) (2 ^ n) g 1 i ^ slotWeight k (ones (i / 2 ^ p)) =
      ∏ i ∈ Finset.range (2 ^ n), g i ^ slotWeight (k + 1) (ones (i / 2 ^ p)) := by
  rw [prod_roundSlots_pow (slotWeight_zero k) hpn]
  exact Finset.prod_congr rfl fun i _ => by rw [sum_slotWeight]

end Aomp.Foundations
