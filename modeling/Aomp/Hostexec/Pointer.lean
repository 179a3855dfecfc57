import Mathlib

/-!
# Tagged packet pointers

A packet pointer is a 64-bit word: the low `index_size` bits select the header and
the payload, the rest is an ABA tag. The null pointer is the word 0, so index 0 is
never used with tag 0. `packetPtr` lists the pointers that a packet goes through, one
per recycling, and `incPtrTag_packetPtr` shows that the source's increment walks
along that list. The list repeats after `tagPeriod` recyclings and not before.
-/
namespace Aomp.Hostexec

abbrev Word := BitVec 64

-- Literals of `Fin 2` and `Fin 8`, and tests of a service id against a list, use these.
scoped instance neZero_two : NeZero 2 := ⟨two_ne_zero⟩
scoped instance neZero_eight : NeZero 8 := ⟨by decide⟩
scoped instance lawfulBEq_serviceId : LawfulBEq (BitVec 32) := inferInstance

/-- `get_ptr_index` -/
def getPtrIndex (ptr : Word) (index_size : ℕ) : ℕ :=
  (ptr &&& ((1#64 <<< index_size) - 1#64)).toNat

/-- `inc_ptr_tag` -/
def incPtrTag (ptr : Word) (index_size : ℕ) : Word :=
  -- Unit step for the tag.
  let inc := 1#64 <<< index_size
  let ptr := ptr + inc
  -- When the tag for index 0 wraps, increment the tag.
  if ptr = 0#64 then inc else ptr

def firstTag (i : ℕ) : ℕ := if i = 0 then 1 else 0

def tagPeriod (index_size i : ℕ) : ℕ := 2 ^ (64 - index_size) - firstTag i

/-- The tagged pointer of packet `i` after `r` recyclings. -/
def packetPtr (index_size i r : ℕ) : Word :=
  BitVec.ofNat 64 (i + (firstTag i + r % tagPeriod index_size i) * 2 ^ index_size)

section

variable {is i j r r' : ℕ}

theorem toNat_one_shiftLeft (h : is < 64) : (1#64 <<< is).toNat = 2 ^ is := by
  rw [BitVec.toNat_shiftLeft, Nat.shiftLeft_eq]
  have : 2 ^ is < 2 ^ 64 := Nat.pow_lt_pow_right (by norm_num) h
  simpa using Nat.mod_eq_of_lt this

theorem getPtrIndex_eq_mod (ptr : Word) (h : is < 64) : getPtrIndex ptr is = ptr.toNat % 2 ^ is := by
  have hle : 1 ≤ 2 ^ is := Nat.one_le_two_pow
  have hlt : 2 ^ is < 2 ^ 64 := Nat.pow_lt_pow_right (by norm_num) h
  have hmask : ((1#64 <<< is) - 1#64).toNat = 2 ^ is - 1 := by
    rw [BitVec.toNat_sub, toNat_one_shiftLeft h]
    simp only [BitVec.toNat_ofNat]
    omega
  rw [getPtrIndex, BitVec.toNat_and, hmask, Nat.and_two_pow_sub_one_eq_mod]

theorem firstTag_le_one (i : ℕ) : firstTag i ≤ 1 := by unfold firstTag; split_ifs <;> omega

theorem two_le_tagSpace (h : is < 64) : 2 ≤ 2 ^ (64 - is) :=
  Nat.le_self_pow (by omega) 2

theorem tagPeriod_pos (h : is < 64) (i : ℕ) : 0 < tagPeriod is i := by
  have := two_le_tagSpace h
  have := firstTag_le_one i
  unfold tagPeriod
  omega

theorem tag_lt (h : is < 64) (i r : ℕ) : firstTag i + r % tagPeriod is i < 2 ^ (64 - is) := by
  have := Nat.mod_lt r (tagPeriod_pos h i)
  have := two_le_tagSpace h
  have := firstTag_le_one i
  unfold tagPeriod at *
  omega

theorem tagSpace_mul (h : is < 64) : 2 ^ (64 - is) * 2 ^ is = 2 ^ 64 := by
  rw [← pow_add]
  congr 1
  omega

theorem toNat_packetPtr (h : is < 64) (hi : i < 2 ^ is) (r : ℕ) :
    (packetPtr is i r).toNat = i + (firstTag i + r % tagPeriod is i) * 2 ^ is := by
  have hlt : i + (firstTag i + r % tagPeriod is i) * 2 ^ is < 2 ^ 64 := by
    calc i + (firstTag i + r % tagPeriod is i) * 2 ^ is
        < (firstTag i + r % tagPeriod is i + 1) * 2 ^ is := by rw [Nat.add_one_mul]; omega
      _ ≤ 2 ^ (64 - is) * 2 ^ is := Nat.mul_le_mul_right _ (tag_lt h i r)
      _ = 2 ^ 64 := tagSpace_mul h
  rw [packetPtr, BitVec.toNat_ofNat, Nat.mod_eq_of_lt hlt]

@[simp] theorem getPtrIndex_packetPtr (h : is < 64) (hi : i < 2 ^ is) (r : ℕ) :
    getPtrIndex (packetPtr is i r) is = i := by
  rw [getPtrIndex_eq_mod _ h, toNat_packetPtr h hi, Nat.add_mul_mod_self_right, Nat.mod_eq_of_lt hi]

theorem packetPtr_ne_zero (h : is < 64) (hi : i < 2 ^ is) (r : ℕ) : packetPtr is i r ≠ 0#64 := by
  intro h0
  have hn := toNat_packetPtr h hi r
  rw [h0] at hn
  have hp : 0 < 2 ^ is := by positivity
  rcases Nat.eq_zero_or_pos i with rfl | hpos
  · have : 1 * 2 ^ is ≤ (firstTag 0 + r % tagPeriod is 0) * 2 ^ is :=
      Nat.mul_le_mul_right _ (by simp [firstTag])
    simp only [BitVec.toNat_ofNat] at hn
    omega
  · simp only [BitVec.toNat_ofNat] at hn
    omega

/-- Pointers of two packets are equal only for one packet at congruent recyclings. -/
theorem packetPtr_inj (h : is < 64) (hi : i < 2 ^ is) (hj : j < 2 ^ is)
    (he : packetPtr is i r = packetPtr is j r') :
    i = j ∧ r % tagPeriod is i = r' % tagPeriod is i := by
  obtain rfl : i = j := by
    rw [← getPtrIndex_packetPtr h hi r, he, getPtrIndex_packetPtr h hj]
  have hn := congrArg BitVec.toNat he
  rw [toNat_packetPtr h hi, toNat_packetPtr h hi] at hn
  have := Nat.eq_of_mul_eq_mul_right (by positivity) (Nat.add_left_cancel hn)
  exact ⟨rfl, Nat.add_left_cancel this⟩

theorem packetPtr_eq_of_lt_period (h : is < 64) (hi : i < 2 ^ is) (hj : j < 2 ^ is)
    (he : packetPtr is i r = packetPtr is j r') (hle : r ≤ r') (hlt : r' < r + tagPeriod is i) :
    i = j ∧ r = r' := by
  obtain ⟨hij, hmod⟩ := packetPtr_inj h hi hj he
  refine ⟨hij, ?_⟩
  have hdvd : tagPeriod is i ∣ r' - r := (Nat.modEq_iff_dvd' hle).mp hmod
  have := Nat.eq_zero_of_dvd_of_lt hdvd (by omega)
  omega

theorem toNat_incPtrTag_of_lt (h : is < 64) {ptr : Word} (hlt : ptr.toNat + 2 ^ is < 2 ^ 64) :
    (incPtrTag ptr is).toNat = ptr.toNat + 2 ^ is := by
  have hadd : (ptr + 1#64 <<< is).toNat = ptr.toNat + 2 ^ is := by
    rw [BitVec.toNat_add, toNat_one_shiftLeft h, Nat.mod_eq_of_lt hlt]
  have hne : ptr + 1#64 <<< is ≠ 0#64 := by
    intro h0
    have hp : 0 < 2 ^ is := by positivity
    have := congrArg BitVec.toNat h0
    rw [hadd] at this
    simp only [BitVec.toNat_ofNat] at this
    omega
  simp only [incPtrTag, if_neg hne, hadd]

/-- The last tag of a packet: the addition wraps, and index 0 skips the null pointer. -/
theorem toNat_incPtrTag_of_wrap (h : is < 64) (hi : i < 2 ^ is) {ptr : Word}
    (hw : ptr.toNat + 2 ^ is = i + 2 ^ 64) :
    (incPtrTag ptr is).toNat = i + firstTag i * 2 ^ is := by
  have hlt : 2 ^ is < 2 ^ 64 := Nat.pow_lt_pow_right (by norm_num) h
  have hadd : (ptr + 1#64 <<< is).toNat = i := by
    rw [BitVec.toNat_add, toNat_one_shiftLeft h, hw, Nat.add_mod_right, Nat.mod_eq_of_lt (by omega)]
  by_cases h0 : i = 0
  · have hz : ptr + 1#64 <<< is = 0#64 := BitVec.eq_of_toNat_eq (by rw [hadd, h0]; rfl)
    simp [incPtrTag, hz, toNat_one_shiftLeft h, firstTag, h0]
  · have hz : ptr + 1#64 <<< is ≠ 0#64 := by
      intro hz
      rw [hz] at hadd
      exact h0 hadd.symm
    simp only [incPtrTag, if_neg hz, hadd, firstTag, if_neg h0]
    omega

/-- The source's increment moves a packet to the next pointer of its list. -/
theorem incPtrTag_packetPtr (h : is < 64) (hi : i < 2 ^ is) (r : ℕ) :
    incPtrTag (packetPtr is i r) is = packetPtr is i (r + 1) := by
  have hP := tagPeriod_pos h i
  have hspace : firstTag i + tagPeriod is i = 2 ^ (64 - is) := by
    have := two_le_tagSpace h
    have := firstTag_le_one i
    unfold tagPeriod
    omega
  apply BitVec.eq_of_toNat_eq
  rw [toNat_packetPtr h hi]
  have hold := toNat_packetPtr h hi r
  by_cases hlast : r % tagPeriod is i + 1 = tagPeriod is i
  · have hnext : (r + 1) % tagPeriod is i = 0 := by
      rw [← Nat.mod_add_mod, hlast, Nat.mod_self]
    rw [hnext, Nat.add_zero]
    apply toNat_incPtrTag_of_wrap h hi
    rw [hold, Nat.add_assoc, ← Nat.add_one_mul, Nat.add_assoc, hlast, hspace, tagSpace_mul h]
  · have hnext : (r + 1) % tagPeriod is i = r % tagPeriod is i + 1 := by
      have := Nat.mod_lt r hP
      rw [← Nat.mod_add_mod, Nat.mod_eq_of_lt (by omega)]
    have hsum : i + (firstTag i + r % tagPeriod is i) * 2 ^ is + 2 ^ is =
        i + (firstTag i + (r + 1) % tagPeriod is i) * 2 ^ is := by
      rw [hnext, ← Nat.add_assoc (firstTag i), Nat.add_one_mul]
      omega
    rw [← hsum, ← hold]
    apply toNat_incPtrTag_of_lt h
    rw [hold, hsum, ← toNat_packetPtr h hi]
    exact BitVec.isLt _

end

end Aomp.Hostexec
