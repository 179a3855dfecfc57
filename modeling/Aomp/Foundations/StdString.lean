import Aomp.Foundations.Bytes
import Mathlib.Data.List.TakeWhile

/-!
# Strings of the C++ library

`find`, `substr` and `stoull` on strings of bytes. A position that does not exist is `npos`, the
largest value of its type.
-/
namespace Aomp.Foundations.StdString

/-- `std::string::npos` -/
def npos : ℕ := 2 ^ 64 - 1

/-- The exceptions of the library. -/
inductive StdException
  | out_of_range
  | invalid_argument
  deriving DecidableEq

/-- The bytes of a text in ASCII. -/
def ascii (text : String) : List Byte := text.toList.map fun c => BitVec.ofNat 8 c.toNat

variable {s a b pat : List Byte} {c : Byte} {i pos n base : ℕ}

/-- The first position from `pos` on where the pattern begins. -/
def find (s pat : List Byte) (pos : ℕ) : ℕ :=
  ((List.range (s.length + 1)).find? fun i => pos ≤ i ∧ pat <+: s.drop i).getD npos

theorem find_eq_of_first (hi : i ≤ s.length) (hpos : pos ≤ i) (hfound : pat <+: s.drop i)
    (hfirst : ∀ j, pos ≤ j → j < i → ¬ pat <+: s.drop j) : find s pat pos = i := by
  have hfind : (List.range (s.length + 1)).find? (fun i => pos ≤ i ∧ pat <+: s.drop i) = some i := by
    rw [List.find?_range_eq_some]
    refine ⟨by simp [hpos, hfound], by simpa using Nat.lt_succ_of_le hi, fun j hj => ?_⟩
    simp only [Bool.not_eq_true', decide_eq_false_iff_not, not_and]
    exact fun hle => hfirst j hle hj
  rw [find, hfind, Option.getD_some]

theorem find_eq_npos (h : ∀ j, ¬ pat <+: s.drop j) : find s pat pos = npos := by
  have hfind : (List.range (s.length + 1)).find? (fun i => pos ≤ i ∧ pat <+: s.drop i) = none := by
    simp [h]
  rw [find, hfind, Option.getD_none]

theorem singleton_prefix_drop : [c] <+: s.drop i ↔ s[i]? = some c := by
  rw [← List.head?_drop]
  cases s.drop i with
  | nil => simp
  | cons d t => simp [List.cons_prefix_cons, eq_comm]

theorem find_char (hpos : pos ≤ a.length) (hc : c ∉ a.drop pos) :
    find (a ++ c :: b) [c] pos = a.length := by
  refine find_eq_of_first (by simp) hpos (by simp) fun j hle hj hfound => hc ?_
  rw [singleton_prefix_drop, List.getElem?_append_left hj] at hfound
  have hdrop : (a.drop pos)[j - pos]? = some c := by
    rw [List.getElem?_drop, Nat.add_sub_cancel' hle]
    exact hfound
  exact List.mem_of_getElem? hdrop

theorem find_char_npos (hc : c ∉ s) : find s [c] pos = npos := by
  refine find_eq_npos fun j hfound => hc ?_
  exact List.mem_of_getElem? (singleton_prefix_drop.mp hfound)

def substr (s : List Byte) (pos count : ℕ) : Except StdException (List Byte) :=
  if s.length < pos then .error .out_of_range else .ok ((s.drop pos).take count)

theorem substr_append (a b s : List Byte) : substr (a ++ (b ++ s)) a.length b.length = .ok b := by
  rw [substr, if_neg (by simp), List.drop_left, List.take_left]

theorem substr_append_right (a b : List Byte) (hcount : b.length ≤ n) :
    substr (a ++ b) a.length n = .ok b := by
  rw [substr, if_neg (by simp), List.drop_left, List.take_of_length_le hcount]

def isspace (c : Byte) : Bool := c = 32 || (9 ≤ c.toNat && c.toNat ≤ 13)

def digitValue (c : Byte) : ℕ :=
  if 48 ≤ c.toNat ∧ c.toNat ≤ 57 then c.toNat - 48
  else if 97 ≤ c.toNat ∧ c.toNat ≤ 122 then c.toNat - 87
  else if 65 ≤ c.toNat ∧ c.toNat ≤ 90 then c.toNat - 55
  else 36

def numberOf (base : ℕ) (digits : List Byte) : ℕ :=
  digits.foldl (fun n c => base * n + digitValue c) 0

def detectBase (s : List Byte) : ℕ × List Byte :=
  if s.head? = some 48 then
    if (s[1]? = some 120 ∨ s[1]? = some 88) ∧ s[2]?.any (digitValue · < 16) then (16, s.drop 2)
    else (8, s)
  else (10, s)

def detectSign (s : List Byte) : Bool × List Byte :=
  if s.head? = some 45 then (true, s.drop 1)
  else if s.head? = some 43 then (false, s.drop 1)
  else (false, s)

/-- `std::stoull(s, nullptr, 0)` -/
def stoull (s : List Byte) : Except StdException ℕ :=
  let (negative, s) := detectSign (s.dropWhile isspace)
  let (base, s) := detectBase s
  let digits := s.takeWhile (digitValue · < base)
  if digits = [] then .error .invalid_argument
  else if 2 ^ 64 ≤ numberOf base digits then .error .out_of_range
  else .ok (if negative then (2 ^ 64 - numberOf base digits) % 2 ^ 64 else numberOf base digits)

/-- `s` writes the number in decimal, or in hexadecimal behind `0x`. A decimal numeral does not
begin with a zero, which would make it octal, unless it is the zero. -/
inductive Writes : List Byte → ℕ → Prop
  | decimal (digits : List Byte) (hne : digits ≠ []) (hdigit : ∀ d ∈ digits, digitValue d < 10)
      (hlead : digits.head? ≠ some 48 ∨ digits = [48]) : Writes digits (numberOf 10 digits)
  | hexadecimal (digits : List Byte) (hne : digits ≠ []) (hdigit : ∀ d ∈ digits, digitValue d < 16) :
      Writes (ascii "0x" ++ digits) (numberOf 16 digits)

def Starts (c : Byte) : Prop := isspace c = false ∧ c ≠ 45 ∧ c ≠ 43

theorem starts_of_digit (h : digitValue c < 16) : Starts c := by
  have hcode : 48 ≤ c.toNat := by
    unfold digitValue at h
    split_ifs at h <;> omega
  have hne : ∀ d : Byte, d.toNat < 48 → c ≠ d := by
    rintro d hd rfl
    omega
  refine ⟨?_, hne 45 (by decide), hne 43 (by decide)⟩
  have hspace : ¬ c.toNat ≤ 13 := by omega
  simpa [isspace, hspace] using hne 32 (by decide)

/-- A numeral without white space and sign in front is read in the base that it announces. -/
theorem stoull_of_detectBase {digits : List Byte} (hstart : Starts c)
    (hbase : detectBase (c :: s) = (base, digits)) (hne : digits ≠ [])
    (hdigit : ∀ d ∈ digits, digitValue d < base) (hn : numberOf base digits < 2 ^ 64) :
    stoull (c :: s) = .ok (numberOf base digits) := by
  obtain ⟨hspace, hminus, hplus⟩ := hstart
  have hdrop : (c :: s).dropWhile isspace = c :: s := by simp [hspace]
  have hsign : detectSign (c :: s) = (false, c :: s) := by
    rw [detectSign, List.head?_cons, if_neg (by simpa using hminus), if_neg (by simpa using hplus)]
  have htake : digits.takeWhile (digitValue · < base) = digits :=
    List.takeWhile_eq_self_iff.mpr fun d hd => decide_eq_true (hdigit d hd)
  unfold stoull
  rw [hdrop, hsign]
  dsimp only
  rw [hbase]
  dsimp only
  rw [htake, if_neg hne, if_neg (Nat.not_le.mpr hn)]
  rfl

theorem stoull_of_writes (h : Writes s n) (hn : n < 2 ^ 64) : stoull s = .ok n := by
  cases h with
  | decimal _ hne hdigit hlead =>
    obtain ⟨c, t, rfl⟩ := List.exists_cons_of_ne_nil hne
    have hstart : Starts c := starts_of_digit (by have := hdigit c List.mem_cons_self; omega)
    rcases hlead with hlead | hzero
    · exact stoull_of_detectBase hstart (if_neg hlead) hne hdigit hn
    · obtain ⟨rfl, rfl⟩ := List.cons.inj hzero
      rfl
  | hexadecimal digits hne hdigit =>
    obtain ⟨c, t, rfl⟩ := List.exists_cons_of_ne_nil hne
    have hbase : detectBase (48 :: 120 :: c :: t) = (16, c :: t) := by
      have hc := hdigit c List.mem_cons_self
      simp [detectBase, hc]
    exact stoull_of_detectBase (starts_of_digit (by decide)) hbase hne hdigit hn

/-- The characters of a numeral are digits and the letter of the prefix. -/
theorem Writes.not_mem (h : Writes s n) (hx : c ≠ 120) (hc : 16 ≤ digitValue c) : c ∉ s := by
  cases h with
  | decimal _ _ hdigit _ =>
    intro hmem
    have hlt := hdigit c hmem
    omega
  | hexadecimal digits _ hdigit =>
    intro hmem
    rw [show ascii "0x" = [48, 120] from rfl, List.cons_append, List.cons_append, List.nil_append,
      List.mem_cons, List.mem_cons] at hmem
    rcases hmem with rfl | rfl | hmem
    · exact absurd hc (by decide)
    · exact hx rfl
    · exact absurd (hdigit c hmem) (by omega)

end Aomp.Foundations.StdString
