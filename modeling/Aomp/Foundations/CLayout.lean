import Mathlib

/-!
# Layout of C objects

A type has a size and an alignment, and a structure puts each member at the next multiple of
its alignment. An object in memory is a type with the address of its first byte.
-/
namespace Aomp.Foundations

/-- A complete object type: an array of it keeps every element aligned. -/
structure CType where
  size : ℕ
  align : ℕ
  align_pos : 0 < align
  align_dvd : align ∣ size

def roundUp (value alignment : ℕ) : ℕ := alignment * (value ⌈/⌉ alignment)

section

variable {value alignment : ℕ}

theorem le_roundUp (h : 0 < alignment) : value ≤ roundUp value alignment :=
  le_smul_ceilDiv h

theorem dvd_roundUp (value alignment : ℕ) : alignment ∣ roundUp value alignment :=
  Nat.dvd_mul_right _ _

/-- The next multiple is the only one that is closer than an alignment. -/
theorem roundUp_eq_of_dvd {m : ℕ} (hdvd : alignment ∣ m) (hle : value ≤ m)
    (hlt : m < value + alignment) : roundUp value alignment = m := by
  obtain ⟨k, rfl⟩ := hdvd
  have hpos : 0 < alignment := by omega
  have hceil : value ⌈/⌉ alignment ≤ k := (ceilDiv_le_iff_le_mul hpos).mpr hle
  have hfloor : k ≤ value ⌈/⌉ alignment := by
    by_contra hless
    have hmul : alignment * (value ⌈/⌉ alignment + 1) ≤ alignment * k :=
      Nat.mul_le_mul_left _ (by omega)
    have hcover : value ≤ alignment * (value ⌈/⌉ alignment) := le_roundUp hpos
    rw [Nat.mul_add_one] at hmul
    omega
  exact congrArg (alignment * ·) (le_antisymm hceil hfloor)

end

namespace CType

def uint (bytes : ℕ) (h : 0 < bytes) : CType := ⟨bytes, bytes, h, dvd_rfl⟩

def uint32_t : CType := uint 4 (by norm_num)
def uint64_t : CType := uint 8 (by norm_num)

/-- `T[n]` -/
def array (T : CType) (n : ℕ) : CType := ⟨n * T.size, T.align, T.align_pos, T.align_dvd.mul_left n⟩

/-- The offsets of the members behind `offset`, and where the last one ends. -/
def memberOffsets : ℕ → List CType → List ℕ × ℕ
  | offset, [] => ([], offset)
  | offset, T :: members =>
    let start := roundUp offset T.align
    let (offsets, finish) := memberOffsets (start + T.size) members
    (start :: offsets, finish)

def maxAlign (members : List CType) : ℕ := members.foldr (fun T n => max T.align n) 1

theorem maxAlign_pos (members : List CType) : 0 < maxAlign members := by
  induction members with
  | nil => exact Nat.one_pos
  | cons T members ih => exact lt_of_lt_of_le ih (le_max_right _ _)

def struct (members : List CType) : CType where
  size := roundUp (memberOffsets 0 members).2 (maxAlign members)
  align := maxAlign members
  align_pos := maxAlign_pos members
  align_dvd := dvd_roundUp _ _

/-- `offsetof`, the members being numbered from 0 on. -/
def offsetOf (members : List CType) (k : ℕ) : ℕ := (memberOffsets 0 members).1.getD k 0

end CType

/-- A place in memory for a value of a type. -/
structure CObject where
  type : CType
  start : ℕ

namespace CObject

variable {o p : CObject} {T : CType} {base lo hi i j n : ℕ}

def finish (o : CObject) : ℕ := o.start + o.type.size

def bytes (o : CObject) : Set ℕ := Set.Ico o.start o.finish

def Aligned (o : CObject) : Prop := o.type.align ∣ o.start

/-- An object that ends before the other begins. -/
theorem disjoint_of_le (h : o.finish ≤ p.start) : Disjoint o.bytes p.bytes := by
  apply Set.disjoint_left.mpr
  rintro a ⟨-, ha⟩ ⟨ha', -⟩
  omega

theorem bytes_subset (hlo : lo ≤ o.start) (hhi : o.finish ≤ hi) : o.bytes ⊆ Set.Ico lo hi :=
  Set.Ico_subset_Ico hlo hhi

/-- `base[i]` of an array that begins at an address. -/
def element (T : CType) (base i : ℕ) : CObject := ⟨T, base + i * T.size⟩

theorem element_finish (T : CType) (base i : ℕ) :
    (element T base i).finish = base + (i + 1) * T.size := by
  rw [finish, element, Nat.add_one_mul, add_assoc]

theorem element_finish_le (h : i < n) : (element T base i).finish ≤ base + n * T.size := by
  rw [element_finish]
  exact Nat.add_le_add_left (Nat.mul_le_mul_right _ h) _

theorem element_aligned (h : T.align ∣ base) (i : ℕ) : (element T base i).Aligned :=
  dvd_add h (T.align_dvd.mul_left i)

theorem element_disjoint (T : CType) (base : ℕ) (h : i ≠ j) :
    Disjoint (element T base i).bytes (element T base j).bytes := by
  rcases Nat.lt_or_gt_of_ne h with hlt | hlt
  · exact disjoint_of_le (element_finish_le hlt)
  · exact (disjoint_of_le (element_finish_le hlt)).symm

end CObject

end Aomp.Foundations
