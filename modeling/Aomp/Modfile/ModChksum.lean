import Aomp.Foundations.Fnv1a

/-!
# The checksum of a module file

`mod-chksum-llvm-flang` computes the checksum in the first line of a Fortran module file anew. The
script hashes the other lines under `use integer`, where its scalars are signed words, and prints the
result with `%x`.
-/

namespace Aomp.Modfile

open Foundations
open Foundations.Fnv1a (absorb hash hexField)

/-- A scalar of Perl is a signed word or an unsigned one. -/
inductive Scalar
  | IV (i : ℤ)
  | UV (u : ℕ)
  deriving DecidableEq, Repr

namespace Scalar

def SvIV : Scalar → ℤ
  | IV i => i
  | UV u => (u : ℤ).bmod (2 ^ 64)

def SvUV : Scalar → ℕ
  | IV i => (BitVec.ofInt 64 i).toNat
  | UV u => u % 2 ^ 64

/-- `^` under `use integer`. -/
def bitXor (a b : Scalar) : Scalar := IV (BitVec.ofInt 64 a.SvIV ^^^ BitVec.ofInt 64 b.SvIV).toInt

/-- `&` under `use integer`. -/
def bitAnd (a b : Scalar) : Scalar := IV (BitVec.ofInt 64 a.SvIV &&& BitVec.ofInt 64 b.SvIV).toInt

/-- `*` under `use integer` wraps around. -/
def multiply (a b : Scalar) : Scalar := IV ((a.SvIV * b.SvIV).bmod (2 ^ 64))

def bits (a : Scalar) : BitVec 64 := BitVec.ofInt 64 a.SvIV

theorem bits_IV (i : ℤ) : (IV i).bits = BitVec.ofInt 64 i := rfl

@[simp] theorem SvIV_UV (u : ℕ) : (UV u).SvIV = (u : ℤ).bmod (2 ^ 64) := rfl

@[simp] theorem bits_UV (u : ℕ) : (UV u).bits = BitVec.ofNat 64 u := by
  have hbits := Fnv1a.ofInt_bmod_natCast (w := 64) u
  push_cast at hbits
  exact hbits

theorem SvUV_eq (a : Scalar) : a.SvUV = a.bits.toNat := by
  cases a with
  | IV i => rw [bits_IV, SvUV]
  | UV u => rw [bits_UV, BitVec.toNat_ofNat, SvUV]

@[simp] theorem bits_bitXor (a b : Scalar) : (bitXor a b).bits = a.bits ^^^ b.bits :=
  BitVec.ofInt_toInt

@[simp] theorem bits_bitAnd (a b : Scalar) : (bitAnd a b).bits = a.bits &&& b.bits :=
  BitVec.ofInt_toInt

@[simp] theorem bits_multiply (a b : Scalar) : (multiply a b).bits = a.bits * b.bits :=
  Fnv1a.ofInt_bmod_mul _ _

end Scalar

open Scalar

/-- `<>` reads lines that keep their newline, and the rest of the file as a last one. -/
def readLines : List Byte → List (List Byte)
  | [] => []
  | b :: rest =>
    if b = 10 then [b] :: readLines rest
    else match readLines rest with
      | [] => [[b]]
      | line :: lines => (b :: line) :: lines

/-- `$hash` at the start. -/
def offset : ℕ := 0xcbf29ce484222325

/-- The factor of `$hash *=`. -/
def prime : ℕ := 0x100000001b3

/-- The body of the loop over `split //, $line`. -/
def hashChar (hash : Scalar) (char : Byte) : Scalar :=
  let hash := bitXor hash (bitAnd (UV char.toNat) (UV 0xff))
  let hash := multiply hash (UV prime)
  bitAnd hash (UV 0xffffffffffffffff)

/-- `$cnt` and `$hash`. -/
structure State where
  cnt : ℕ
  hash : Scalar

/-- One round of `while (<>)`. The first line is skipped. -/
def readLine (s : State) (line : List Byte) : State :=
  let cnt := s.cnt + 1
  if cnt ≤ 1 then ⟨cnt, s.hash⟩ else ⟨cnt, line.foldl hashChar s.hash⟩

def afterLines (lines : List (List Byte)) : State := lines.foldl readLine ⟨0, UV offset⟩

/-- The line that the script prints for a file. -/
def modChksum (contents : List Byte) : List Char :=
  "!mod$ v1 sum:".toList ++ Nat.toDigits 16 (afterLines (readLines contents)).hash.SvUV ++ ['\n']

def hashedBytes (contents : List Byte) : List Byte := (contents.dropWhile (· ≠ 10)).drop 1

/-- The checksum as a module file has it. -/
def checksum (contents : List Byte) : ℕ := hash 64 offset prime (hashedBytes contents)

/-- One character is taken in as in the unsigned hash. -/
theorem SvUV_hashChar (x : Scalar) (char : Byte) :
    (hashChar x char).SvUV = absorb 64 prime x.SvUV char := by
  have hbyte : BitVec.ofNat 64 char.toNat &&& BitVec.ofNat 64 0xff = char.setWidth 64 := by
    apply BitVec.eq_of_toNat_eq
    have hchar := char.isLt
    rw [BitVec.toNat_and, BitVec.toNat_ofNat, BitVec.toNat_ofNat, BitVec.toNat_setWidth,
      Nat.mod_eq_of_lt (by norm_num : 0xff < 2 ^ 64), Nat.and_two_pow_sub_one_eq_mod _ 8]
    omega
  have hclip (y : BitVec 64) : y &&& BitVec.ofNat 64 0xffffffffffffffff = y := by
    exact BitVec.and_allOnes
  rw [SvUV_eq, SvUV_eq, Fnv1a.absorb_toNat (by norm_num), hashChar, bits_bitAnd, bits_multiply,
    bits_bitXor, bits_bitAnd, bits_UV, bits_UV, bits_UV, bits_UV, hclip, hbyte]

theorem SvUV_foldl_hashChar (chars : List Byte) (x : Scalar) :
    (chars.foldl hashChar x).SvUV = hash 64 x.SvUV prime chars := by
  induction chars generalizing x with
  | nil => rfl
  | cons char chars ih =>
    rw [List.foldl_cons, ih, SvUV_hashChar]
    rfl

theorem afterLines_append (lines later : List (List Byte)) :
    afterLines (lines ++ later) = later.foldl readLine (afterLines lines) :=
  List.foldl_append

/-- Every line but the first is hashed. -/
theorem afterLines_eq (lines : List (List Byte)) :
    (afterLines lines).cnt = lines.length
      ∧ (afterLines lines).hash.SvUV = hash 64 offset prime (lines.drop 1).flatten := by
  induction lines using List.reverseRecOn with
  | nil => exact ⟨rfl, rfl⟩
  | append_singleton lines line ih =>
    obtain ⟨hcnt, hhash⟩ := ih
    rw [afterLines_append, List.foldl_cons, List.foldl_nil, readLine, hcnt]
    rcases lines with _ | ⟨first, lines⟩
    · simp [afterLines, SvUV, offset]
    · have hlater : ¬ (first :: lines).length + 1 ≤ 1 := by simp
      simp only [if_neg hlater]
      constructor
      · simp
      · rw [SvUV_foldl_hashChar, hhash]
        rw [← Fnv1a.hash_append]
        simp

theorem readLines_eq_nil {contents : List Byte} : readLines contents = [] ↔ contents = [] := by
  cases contents with
  | nil => simp [readLines]
  | cons b rest =>
    rw [readLines]
    split
    · simp
    · split <;> simp

theorem flatten_readLines (contents : List Byte) : (readLines contents).flatten = contents := by
  induction contents with
  | nil => rfl
  | cons b rest ih =>
    rw [readLines]
    split
    · rw [List.flatten_cons, ih, List.singleton_append]
    · rcases hrest : readLines rest with _ | ⟨line, lines⟩
      · rw [readLines_eq_nil.mp hrest]
        rfl
      · rw [hrest, List.flatten_cons] at ih
        rw [List.flatten_cons, List.cons_append, ih]

/-- The lines but the first are the bytes after the first newline. -/
theorem flatten_drop_readLines (contents : List Byte) :
    ((readLines contents).drop 1).flatten = hashedBytes contents := by
  induction contents with
  | nil => rfl
  | cons b rest ih =>
    rw [readLines, hashedBytes]
    split
    next hnewline =>
      rw [List.drop_succ_cons, List.drop_zero, flatten_readLines]
      simp [hnewline]
    next hother =>
      rw [List.dropWhile_cons_of_pos (by simpa using hother), ← hashedBytes, ← ih]
      split <;> simp_all

/-- The printed checksum is that of the file, and the signed hash is the unsigned one after every
byte. -/
structure Agrees (contents : List Byte) : Prop where
  printed : modChksum contents
    = "!mod$ v1 sum:".toList ++ hexField (checksum contents) 16 ++ ['\n']
  eachByte : ∀ lines line later done rest, readLines contents = lines ++ line :: later → lines ≠ [] →
    line = done ++ rest →
      (done.foldl hashChar (afterLines lines).hash).SvUV
        = hash 64 offset prime ((lines.drop 1).flatten ++ done)

theorem SvUV_afterLines (contents : List Byte) :
    (afterLines (readLines contents)).hash.SvUV = checksum contents := by
  rw [(afterLines_eq _).2, flatten_drop_readLines, checksum]

theorem modChksum_eq (contents : List Byte) :
    modChksum contents
      = "!mod$ v1 sum:".toList ++ Nat.toDigits 16 (checksum contents) ++ ['\n'] := by
  unfold modChksum
  rw [SvUV_afterLines]

theorem SvUV_within_line (lines : List (List Byte)) (done : List Byte) :
    (done.foldl hashChar (afterLines lines).hash).SvUV
      = hash 64 offset prime ((lines.drop 1).flatten ++ done) := by
  rw [SvUV_foldl_hashChar, (afterLines_eq lines).2, Fnv1a.hash_append]

/-- The script prints the checksum with its leading zeros exactly when there are none. -/
theorem agrees_iff (contents : List Byte) : Agrees contents ↔ 16 ^ 15 ≤ checksum contents := by
  have hdigits := Fnv1a.toDigits_eq_hexField (checksum contents) 15
  constructor
  · intro h
    have hprinted := h.printed
    rw [modChksum_eq, List.append_cancel_right_eq, List.append_cancel_left_eq, hdigits] at hprinted
    exact hprinted.resolve_left (by norm_num)
  · intro hlarge
    constructor
    · rw [modChksum_eq, hdigits.mpr (Or.inr hlarge)]
    · intro lines line later done rest _ _ _
      exact SvUV_within_line lines done

/-- A module file whose checksum starts with a zero. -/
def leadingZero : List Byte :=
  "!mod$ v1 sum:0\nmodule ah\nend\n".toList.map fun c => BitVec.ofNat 8 c.toNat

theorem not_agrees_leadingZero :
    modChksum leadingZero = "!mod$ v1 sum:6034ffb1edcae71\n".toList ∧ ¬ Agrees leadingZero := by
  have hprinted : modChksum leadingZero = "!mod$ v1 sum:6034ffb1edcae71\n".toList := by
    decide +kernel
  have hfield : hexField (checksum leadingZero) 16 = "06034ffb1edcae71".toList := by
    decide +kernel
  constructor
  · exact hprinted
  · intro h
    have hsame := h.printed
    rw [hprinted, hfield] at hsame
    exact absurd hsame (by decide)

end Aomp.Modfile
