import Aomp.Foundations.Binary64
import Aomp.Xteam.Fold

/-!
# The lane exchange of 64-bit integers

`xteamr_shfl_xor` for `long` and `unsigned long` converts the value to `double`, shuffles the
two halves of the double and converts back. A value survives that if and only if it has at
most 53 significant bits, so that a reduction is exact where all the partial results it
exchanges have no more.
-/
namespace Aomp.Xteam

open Foundations Kernel

/-- `xteamr_shfl_xor_int`. -/
def shflXorInt (width : ℕ) (var : ℕ → BitVec 32) (self lane_mask : ℕ) : BitVec 32 :=
  exactShflXor width var self lane_mask

/-- `xteamr_shfl_xor_d` on the patterns of the doubles: the halves are `tmp[0]` and `tmp[1]`. -/
def shflXorD (width : ℕ) (var : ℕ → BitVec 64) (self lane_mask : ℕ) : BitVec 64 :=
  let tmp0 := shflXorInt width (fun l => (var l).extractLsb' 0 32) self lane_mask
  let tmp1 := shflXorInt width (fun l => (var l).extractLsb' 32 32) self lane_mask
  tmp1.signExtend 64 <<< 32 ||| tmp0.setWidth 64

/-- The two 64-bit integer types that are exchanged as doubles. -/
inductive Int64Type
  | long
  | ulong
  deriving DecidableEq

namespace Int64Type

/-- The integer that a word of the type stands for. -/
def value : Int64Type → BitVec 64 → ℤ
  | long, x => x.toInt
  | ulong, x => x.toNat

def InRange : Int64Type → ℤ → Prop
  | long, z => -2 ^ 63 ≤ z ∧ z < 2 ^ 63
  | ulong, z => 0 ≤ z ∧ z < 2 ^ 64

instance (ty : Int64Type) (z : ℤ) : Decidable (ty.InRange z) :=
  match ty with
  | long => inferInstanceAs (Decidable (-2 ^ 63 ≤ z ∧ z < 2 ^ 63))
  | ulong => inferInstanceAs (Decidable (0 ≤ z ∧ z < 2 ^ 64))

def toDouble (ty : Int64Type) (x : BitVec 64) : BitVec 64 := Binary64.ofInt (ty.value x)

/-- The conversion of a double to the type. Out of range it is undefined, and `poison` stands
for whatever the platform makes of the double. -/
def ofDouble (ty : Int64Type) (poison : BitVec 64 → BitVec 64) (d : BitVec 64) : BitVec 64 :=
  match Binary64.truncate d with
  | some z => if ty.InRange z then BitVec.ofInt 64 z else poison d
  | none => poison d

/-- `xteamr_shfl_xor` for the tags `_l_tag` and `_ul_tag`. -/
def shflXor (ty : Int64Type) (poison : BitVec 64 → BitVec 64) (width : ℕ) (var : ℕ → BitVec 64)
    (self lane_mask : ℕ) : BitVec 64 :=
  ty.ofDouble poison (shflXorD width (fun l => ty.toDouble (var l)) self lane_mask)

def relay (ty : Int64Type) (poison : BitVec 64 → BitVec 64) (x : BitVec 64) : BitVec 64 :=
  ty.ofDouble poison (ty.toDouble x)

/-- The value has at most 53 significant bits. -/
def Fits (ty : Int64Type) (x : BitVec 64) : Prop := Binary64.Fits (ty.value x).natAbs

instance (ty : Int64Type) (x : BitVec 64) : Decidable (ty.Fits x) :=
  inferInstanceAs (Decidable (Binary64.Fits (ty.value x).natAbs))

end Int64Type

theorem join_halves (x : BitVec 64) :
    (x.extractLsb' 32 32).signExtend 64 <<< 32 ||| (x.extractLsb' 0 32).setWidth 64 = x := by
  ext i hi
  by_cases h : i < 32
  · simp [h, BitVec.getLsbD_eq_getElem hi]
  · have hlow : i - 32 < 32 := by omega
    have hback : 32 + (i - 32) = i := by omega
    simp [h, hlow, hback, BitVec.getElem_signExtend, BitVec.getLsbD_eq_getElem hi]

theorem shflXorD_eq (width : ℕ) (var : ℕ → BitVec 64) (self lane_mask : ℕ) :
    shflXorD width var self lane_mask = var (shflIndex width self lane_mask) :=
  join_halves _

namespace Int64Type

variable {ty : Int64Type} {poison : BitVec 64 → BitVec 64} {x : BitVec 64}

theorem inRange_value (ty : Int64Type) (x : BitVec 64) : ty.InRange (ty.value x) := by
  cases ty with
  | long => exact ⟨by have := BitVec.le_toInt x; simpa [value] using this,
      by have := BitVec.toInt_lt (x := x); simpa [value] using this⟩
  | ulong => exact ⟨by simp [value], by have := x.isLt; simp only [value]; omega⟩

theorem ofInt_value (ty : Int64Type) (x : BitVec 64) : BitVec.ofInt 64 (ty.value x) = x := by
  cases ty with
  | long => exact BitVec.ofInt_toInt
  | ulong => simp [value]

theorem value_ofInt {z : ℤ} (h : ty.InRange z) : ty.value (BitVec.ofInt 64 z) = z := by
  cases ty with
  | long => exact BitVec.toInt_ofInt_eq_self (by omega) h.1 h.2
  | ulong =>
    obtain ⟨h0, h1⟩ := h
    simp only [value, BitVec.toNat_ofInt]
    omega

theorem log2_value (ty : Int64Type) (x : BitVec 64) : (ty.value x).natAbs.log2 < 900 := by
  have hrange := ty.inRange_value x
  by_cases h0 : (ty.value x).natAbs = 0
  · rw [h0]
    simp
  · have hlt : (ty.value x).natAbs < 2 ^ 65 := by
      cases ty <;> simp only [InRange] at hrange <;> omega
    have := (Nat.log2_lt h0).mpr hlt
    omega

/-- The exchange brings back exactly the values with at most 53 significant bits. -/
theorem relay_eq_iff (ty : Int64Type) (x : BitVec 64) :
    (∀ poison, ty.relay poison x = x) ↔ ty.Fits x := by
  have htrunc := Binary64.truncate_ofInt (ty.log2_value x)
  unfold Fits
  rw [← Binary64.roundInt_eq_self_iff]
  constructor
  · intro h
    by_cases hrange : ty.InRange (Binary64.roundInt (ty.value x))
    · have h0 := h id
      unfold relay ofDouble toDouble at h0
      rw [htrunc] at h0
      simp only [hrange, if_true] at h0
      rw [← value_ofInt hrange, h0]
    · -- out of range nothing is promised
      have h1 := h fun _ => x + 1
      unfold relay ofDouble toDouble at h1
      rw [htrunc] at h1
      simp only [hrange, if_false] at h1
      exact absurd h1 (by simp)
  · intro h poison
    unfold relay ofDouble toDouble
    rw [htrunc, h]
    simp only [ty.inRange_value x, if_true]
    exact ty.ofInt_value x

theorem shflXor_eq_relay (width : ℕ) (var : ℕ → BitVec 64) (self lane_mask : ℕ) :
    ty.shflXor poison width var self lane_mask =
      ty.relay poison (var (shflIndex width self lane_mask)) := by
  rw [shflXor, shflXorD_eq]
  rfl

/-- The exchange delivers the partner's value to every lane and for every mask if and only
if all lanes fit. -/
theorem shflXor_eq_iff (ty : Int64Type) {WSZ : ℕ} (hwarp : WSZ = 32 ∨ WSZ = 64)
    (var : ℕ → BitVec 64) :
    (∀ poison, ∀ self < WSZ, ∀ lane_mask < WSZ,
      ty.shflXor poison WSZ var self lane_mask = var (self ^^^ lane_mask)) ↔
        ∀ lane < WSZ, ty.Fits (var lane) := by
  obtain ⟨p, rfl⟩ := exists_warp_pow hwarp
  constructor
  · intro h lane hlane
    apply (ty.relay_eq_iff _).mp
    intro poison
    have hself := h poison lane hlane 0 (by positivity)
    rwa [shflXor_eq_relay, shflIndex_eq hlane (by positivity), Nat.xor_zero] at hself
  · intro h poison self hself lane_mask hmask
    rw [shflXor_eq_relay, shflIndex_eq hself hmask]
    exact (ty.relay_eq_iff _).mpr (h _ (Nat.xor_lt_two_pow hself hmask)) poison

end Int64Type

end Aomp.Xteam
