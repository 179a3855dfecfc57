import Mathlib.Tactic

/-!
# Byte memory

Memory is a function from addresses to bytes, and numbers are stored with the lowest byte
first. Stores that follow one another do not overlap, so that each of them is read back.
-/
namespace Aomp.Foundations

abbrev Byte := BitVec 8

/-- The `n` lowest bytes of a number, the lowest first. -/
def leBytes : ℕ → ℕ → List Byte
  | 0, _ => []
  | n + 1, v => BitVec.ofNat 8 v :: leBytes n (v / 256)

/-- The number in the `n` bytes from an address on. -/
def readLE (mem : ℕ → Byte) : ℕ → ℕ → ℕ
  | _, 0 => 0
  | a, n + 1 => (mem a).toNat + 256 * readLE mem (a + 1) n

@[simp] theorem length_leBytes (n v : ℕ) : (leBytes n v).length = n := by
  induction n generalizing v with
  | zero => rfl
  | succ n ih => simp [leBytes, ih]

theorem readLE_congr {mem mem' : ℕ → Byte} {n a : ℕ} (h : ∀ i < n, mem (a + i) = mem' (a + i)) :
    readLE mem a n = readLE mem' a n := by
  induction n generalizing a with
  | zero => rfl
  | succ n ih =>
    have hrest : readLE mem (a + 1) n = readLE mem' (a + 1) n := by
      apply ih
      intro i hi
      rw [add_assoc, add_comm 1]
      exact h (i + 1) (by omega)
    have hfirst : mem a = mem' a := h 0 (by omega)
    rw [readLE, readLE, hrest, hfirst]

theorem readLE_lt (mem : ℕ → Byte) (a n : ℕ) : readLE mem a n < 256 ^ n := by
  induction n generalizing a with
  | zero => simp [readLE]
  | succ n ih =>
    have hbyte := (mem a).isLt
    have hrest := ih (a + 1)
    rw [readLE, pow_succ]
    omega

/-- A store of bytes at an offset. -/
structure Store where
  offset : ℕ
  bytes : List Byte

namespace Store

def finish (s : Store) : ℕ := s.offset + s.bytes.length

def Held (s : Store) (mem : ℕ → Byte) (base : ℕ) : Prop :=
  ∀ i (h : i < s.bytes.length), mem (base + s.offset + i) = s.bytes[i]

def write (base : ℕ) (mem : ℕ → Byte) (s : Store) : ℕ → Byte := fun a =>
  if h : base + s.offset ≤ a ∧ a - (base + s.offset) < s.bytes.length then
    s.bytes[a - (base + s.offset)] else mem a

def writeAll (base : ℕ) (mem : ℕ → Byte) (stores : List Store) : ℕ → Byte :=
  stores.foldl (write base) mem

variable {base lo mid hi a : ℕ} {mem : ℕ → Byte} {s : Store} {ss ts : List Store}

theorem write_of_lt (h : a < base + s.offset) : s.write base mem a = mem a :=
  dif_neg (by omega)

theorem write_of_le (h : base + s.finish ≤ a) : s.write base mem a = mem a := by
  unfold finish at h
  exact dif_neg (by omega)

theorem held_write : s.Held (s.write base mem) base := by
  intro i hi
  have hback : base + s.offset + i - (base + s.offset) = i := by omega
  unfold write
  rw [dif_pos ⟨by omega, by omega⟩]
  simp only [hback]

theorem Held.congr {mem' : ℕ → Byte} (h : s.Held mem base)
    (hmem : ∀ i < s.bytes.length, mem' (base + s.offset + i) = mem (base + s.offset + i)) :
    s.Held mem' base :=
  fun i hi => (hmem i hi).trans (h i hi)

/-- A number that is held is read back. -/
theorem Held.readLE {off n v : ℕ} (h : Held ⟨off, leBytes n v⟩ mem base) :
    readLE mem (base + off) n = v % 256 ^ n := by
  induction n generalizing off v with
  | zero => simp [Foundations.readLE, Nat.mod_one]
  | succ n ih =>
    have hfirst : mem (base + off) = BitVec.ofNat 8 v := h 0 (by simp)
    have hrest : Held ⟨off + 1, leBytes n (v / 256)⟩ mem base := by
      intro i hi
      have hnext := h (i + 1) (by simpa using hi)
      have haddr : base + (off + 1) + i = base + off + (i + 1) := by omega
      rw [haddr]
      exact hnext
    have hbyte : (BitVec.ofNat 8 v).toNat = v % 256 := BitVec.toNat_ofNat v 8
    rw [Foundations.readLE, add_assoc, ih hrest, hfirst, hbyte, pow_succ' 256 n]
    exact Nat.mod_mul.symm

def Between : ℕ → List Store → ℕ → Prop
  | lo, [], hi => lo ≤ hi
  | lo, s :: ss, hi => lo ≤ s.offset ∧ Between s.finish ss hi

theorem Between.le (h : Between lo ss hi) : lo ≤ hi := by
  induction ss generalizing lo with
  | nil => exact h
  | cons s ss ih =>
    have hrest := ih h.2
    have hfirst := h.1
    unfold finish at hrest
    omega

theorem Between.append (hs : Between lo ss mid) (ht : Between mid ts hi) :
    Between lo (ss ++ ts) hi := by
  induction ss generalizing lo with
  | nil =>
    cases ts with
    | nil => exact le_trans hs ht
    | cons t ts => exact ⟨le_trans hs ht.1, ht.2⟩
  | cons s ss ih => exact ⟨hs.1, ih hs.2⟩

theorem Between.bounds (h : Between lo ss hi) : ∀ s ∈ ss, lo ≤ s.offset ∧ s.finish ≤ hi := by
  induction ss generalizing lo with
  | nil => simp
  | cons s ss ih =>
    intro t ht
    rcases List.mem_cons.mp ht with rfl | ht
    · exact ⟨h.1, h.2.le⟩
    · have hrest := ih h.2 t ht
      have hfirst := h.1
      unfold finish at hrest
      refine ⟨?_, ih h.2 t ht |>.2⟩
      omega

/-- Stores that follow one another do not overlap. -/
theorem Between.pairwise (h : Between lo ss hi) : ss.Pairwise fun s t => s.finish ≤ t.offset := by
  induction ss generalizing lo with
  | nil => exact List.Pairwise.nil
  | cons s ss ih => exact List.Pairwise.cons (fun t ht => (h.2.bounds t ht).1) (ih h.2)

/-- The stores do not overlap. -/
def Apart (s t : Store) : Prop := s.finish ≤ t.offset ∨ t.finish ≤ s.offset

theorem Held.write {t : Store} (h : s.Held mem base) (hst : s.Apart t) :
    s.Held (t.write base mem) base := by
  apply h.congr
  intro i hi
  rcases hst with hle | hle
  · apply write_of_lt
    unfold finish at hle
    omega
  · apply write_of_le
    omega

theorem Held.writeAll (h : s.Held mem base) (hss : ∀ t ∈ ss, s.Apart t) :
    s.Held (writeAll base mem ss) base := by
  induction ss generalizing mem with
  | nil => exact h
  | cons t ss ih =>
    exact ih (h.write (hss t List.mem_cons_self)) fun u hu => hss u (List.mem_cons_of_mem _ hu)

/-- After stores that do not overlap each of them is in memory. -/
theorem held_writeAll (h : ss.Pairwise Apart) : ∀ s ∈ ss, s.Held (writeAll base mem ss) base := by
  induction h generalizing mem with
  | nil => simp
  | cons hfirst _ ih =>
    rintro s (_ | ⟨_, hs⟩)
    · exact held_write.writeAll hfirst
    · exact ih s hs

theorem Between.held (h : Between lo ss hi) : ∀ s ∈ ss, s.Held (writeAll base mem ss) base :=
  held_writeAll (h.pairwise.imp .inl)

end Store

end Aomp.Foundations
