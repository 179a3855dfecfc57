import Aomp.Foundations.Bytes

/-!
# Percent encoding

Some bytes stand for themselves, and each other byte is written as `%` and two hexadecimal
digits. The decoder is given the meaning of two digits.
-/
namespace Aomp.Foundations.PercentCode

variable (plain : Byte → Bool) (pair : Byte → Byte → Byte)

def percent : Byte := 37

def hexDigit (n : ℕ) : Byte := BitVec.ofNat 8 (if n < 10 then 48 + n else 55 + n)

def encodeByte (b : Byte) : List Byte :=
  if plain b then [b] else [percent, hexDigit (b.toNat / 16), hexDigit (b.toNat % 16)]

def encode (path : List Byte) : List Byte := path.flatMap (encodeByte plain)

/-- What was written; `none` where the text ends in an escape that is not complete. -/
def decode : List Byte → Option (List Byte)
  | [] => some []
  | c :: cs =>
    if plain c then (decode cs).map (c :: ·)
    else match cs with
      | t :: l :: rest => (decode rest).map (pair t l :: ·)
      | _ => none

/-- The decoder knows the digits of the encoder, and `%` does not stand for itself. -/
structure Inverse : Prop where
  percent : plain percent = false
  pair : ∀ b : Byte, pair (hexDigit (b.toNat / 16)) (hexDigit (b.toNat % 16)) = b

variable {plain pair} {c : Byte}

theorem decode_plain (hc : plain c = true) (cs : List Byte) :
    decode plain pair (c :: cs) = (decode plain pair cs).map (c :: ·) := by
  rcases cs with _ | ⟨t, _ | ⟨l, rest⟩⟩ <;> simp [decode, hc]

theorem decode_escape (hc : plain c = false) (t l : Byte) (rest : List Byte) :
    decode plain pair (c :: t :: l :: rest) = (decode plain pair rest).map (pair t l :: ·) := by
  simp [decode, hc]

theorem decode_encode (h : Inverse plain pair) (path : List Byte) :
    decode plain pair (encode plain path) = some path := by
  induction path with
  | nil => rfl
  | cons b path ih =>
    rw [encode, List.flatMap_cons, encodeByte]
    by_cases hb : plain b = true
    · rw [if_pos hb, List.singleton_append, decode_plain hb]
      exact congrArg (Option.map (b :: ·)) ih
    · rw [if_neg hb, List.cons_append, List.cons_append, List.singleton_append,
        decode_escape h.percent, h.pair]
      exact congrArg (Option.map (b :: ·)) ih

/-- A character of an encoded text stands for itself, or belongs to an escape. -/
theorem mem_encode (path : List Byte) (hc : c ∈ encode plain path) :
    plain c = true ∨ c = percent ∨ ∃ n < 16, c = hexDigit n := by
  obtain ⟨b, -, hmem⟩ := List.mem_flatMap.mp hc
  have hbyte : b.toNat < 256 := b.isLt
  unfold encodeByte at hmem
  split_ifs at hmem with hb
  · obtain rfl := List.mem_singleton.mp hmem
    exact .inl hb
  · simp only [List.mem_cons, List.not_mem_nil, or_false] at hmem
    rcases hmem with rfl | rfl | rfl
    · exact .inr (.inl rfl)
    · exact .inr (.inr ⟨_, by omega, rfl⟩)
    · exact .inr (.inr ⟨_, by omega, rfl⟩)

theorem not_mem_encode (hc : plain c = false) (hpercent : c ≠ percent)
    (hdigit : ∀ n < 16, c ≠ hexDigit n) (path : List Byte) : c ∉ encode plain path := by
  intro hmem
  rcases mem_encode path hmem with hplain | rfl | ⟨n, hn, rfl⟩
  · rw [hc] at hplain
    cases hplain
  · exact hpercent rfl
  · exact hdigit n hn rfl

end Aomp.Foundations.PercentCode
