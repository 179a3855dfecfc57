import Mathlib.Data.List.Infix
import Mathlib.Data.List.Basic

/-!
# Searching in text

A text is a list of symbols. Searches return the suffix that begins where the pattern was found,
from the left or from the right; lines are what a separator ends, so a last piece without one
is not a line.
-/

namespace Aomp.Foundations

variable {α : Type*}

section Suffixes

variable (p : List α → Bool)

def firstSuffix : List α → Option (List α)
  | [] => none
  | c :: s => if p (c :: s) then some (c :: s) else firstSuffix s

def lastSuffix : List α → Option (List α)
  | [] => none
  | c :: s => (lastSuffix s).or (if p (c :: s) then some (c :: s) else none)

variable {p}

theorem firstSuffix_append {b : List α} (hb : b ≠ []) (hp : p b = true) (a : List α) :
    ∃ x, firstSuffix p (a ++ b) = some (x ++ b) := by
  induction a with
  | nil =>
    cases b with
    | nil => exact absurd rfl hb
    | cons c s => exact ⟨[], by simp [firstSuffix, hp]⟩
  | cons c a ih =>
    by_cases hc : p (c :: (a ++ b)) = true
    · exact ⟨c :: a, by simp [firstSuffix, hc]⟩
    · obtain ⟨x, hx⟩ := ih
      exact ⟨x, by simpa [firstSuffix, hc] using hx⟩

theorem firstSuffix_eq_some {s r : List α} (h : firstSuffix p s = some r) : r <:+ s ∧ p r = true := by
  induction s with
  | nil => simp [firstSuffix] at h
  | cons c s ih =>
    rw [firstSuffix] at h
    split_ifs at h with hp
    · cases h
      exact ⟨List.suffix_refl _, hp⟩
    · exact ⟨(ih h).1.trans (List.suffix_cons c s), (ih h).2⟩

theorem lastSuffix_eq_some {s r : List α} (h : lastSuffix p s = some r) : r <:+ s ∧ p r = true := by
  induction s with
  | nil => simp [lastSuffix] at h
  | cons c s ih =>
    rw [lastSuffix, Option.or_eq_some_iff] at h
    obtain h | ⟨-, h⟩ := h
    · exact ⟨(ih h).1.trans (List.suffix_cons c s), (ih h).2⟩
    · obtain ⟨hp, h⟩ := Option.ite_none_right_eq_some.mp h
      cases h
      exact ⟨List.suffix_refl _, hp⟩

theorem lastSuffix_eq_none {s : List α} (h : ∀ r, r <:+ s → p r = false) : lastSuffix p s = none := by
  induction s with
  | nil => rfl
  | cons c s ih =>
    rw [lastSuffix, ih fun r hr => h r (hr.trans (List.suffix_cons c s))]
    simp [h (c :: s) (List.suffix_refl _)]

theorem lastSuffix_append_of_some {b r : List α} (h : lastSuffix p b = some r) (a : List α) :
    lastSuffix p (a ++ b) = some r := by
  induction a with
  | nil => exact h
  | cons c a ih => simp [lastSuffix, ih]

theorem lastSuffix_append_of_none {b : List α} (h : lastSuffix p b = none) (a : List α) :
    lastSuffix p (a ++ b) = (lastSuffix (fun s => p (s ++ b)) a).map (· ++ b) := by
  induction a with
  | nil => simpa [lastSuffix] using h
  | cons c a ih =>
    rw [List.cons_append, lastSuffix, ih, lastSuffix]
    cases lastSuffix (fun s => p (s ++ b)) a with
    | some r => simp
    | none => by_cases hp : p (c :: (a ++ b)) = true <;> simp [hp]

/-- The last match is still the last one in every part of the text that begins with it. -/
theorem lastSuffix_self {s r : List α} (h : lastSuffix p s = some r) : lastSuffix p r = some r := by
  induction s with
  | nil => simp [lastSuffix] at h
  | cons c s ih =>
    have hcons := h
    rw [lastSuffix, Option.or_eq_some_iff] at h
    obtain h | ⟨-, h⟩ := h
    · exact ih h
    · obtain ⟨-, h⟩ := Option.ite_none_right_eq_some.mp h
      cases h
      exact hcons

theorem exists_lastSuffix_append {b : List α} (hb : b ≠ []) (hp : p b = true) (a : List α) :
    ∃ r, lastSuffix p (a ++ b) = some r := by
  have hfound : ∃ r, lastSuffix p b = some r := by
    cases b with
    | nil => exact absurd rfl hb
    | cons c s =>
      rw [lastSuffix, if_pos hp]
      cases lastSuffix p s with
      | none => exact ⟨_, rfl⟩
      | some r => exact ⟨r, rfl⟩
  obtain ⟨r, hr⟩ := hfound
  exact ⟨r, lastSuffix_append_of_some hr a⟩

theorem lastSuffix_congr {q : List α → Bool} {s : List α} (h : ∀ r, r <:+ s → p r = q r) :
    lastSuffix p s = lastSuffix q s := by
  induction s with
  | nil => rfl
  | cons c s ih =>
    rw [lastSuffix, lastSuffix, ih fun r hr => h r (hr.trans (List.suffix_cons c s)),
      h _ (List.suffix_refl _)]

end Suffixes

section Separators

variable {c : α} {pat : List α}

theorem prefix_append_cons (hc : c ∉ pat) (a b : List α) : pat <+: a ++ c :: b ↔ pat <+: a := by
  constructor
  · intro h
    induction a generalizing pat with
    | nil =>
      cases pat with
      | nil => exact List.prefix_refl _
      | cons d pat => simp_all
    | cons e a ih =>
      cases pat with
      | nil => exact List.nil_prefix
      | cons d pat =>
        rw [List.cons_append, List.cons_prefix_cons] at h
        exact List.cons_prefix_cons.mpr ⟨h.1, ih (fun hmem => hc (List.mem_cons_of_mem _ hmem)) h.2⟩
  · exact List.prefix_append_of_prefix

theorem infix_append_cons (hc : c ∉ pat) (a b : List α) :
    pat <:+: a ++ c :: b ↔ pat <:+: a ∨ pat <:+: b := by
  induction a with
  | nil =>
    have hnil : pat <+: c :: b ↔ pat <+: [] := prefix_append_cons hc [] b
    rw [List.nil_append, List.infix_cons_iff, hnil, List.prefix_nil, List.infix_nil]
  | cons d a ih =>
    have hcons : pat <+: d :: (a ++ c :: b) ↔ pat <+: d :: a := prefix_append_cons hc (d :: a) b
    rw [List.cons_append, List.infix_cons_iff, ih, List.infix_cons_iff, or_assoc, hcons]

def followedBy [DecidableEq α] (p q line : List α) : Bool :=
  (firstSuffix (p.isPrefixOf ·) line).any fun m => q <:+: m.drop p.length

theorem followedBy_iff [DecidableEq α] {p q : List α} (hp : p ≠ []) {line : List α} :
    followedBy p q line = true ↔ ∃ a b, line = a ++ b ∧ p <:+: a ∧ q <:+: b := by
  rw [followedBy, Option.any_eq_true]
  constructor
  · rintro ⟨m, hm, hq⟩
    obtain ⟨⟨x, rfl⟩, hstart⟩ := firstSuffix_eq_some hm
    obtain ⟨y, rfl⟩ := List.isPrefixOf_iff_prefix.mp hstart
    exact ⟨x ++ p, y, by simp, (List.suffix_append _ _).isInfix, by simpa using hq⟩
  · rintro ⟨_, b, rfl, ⟨x, y, rfl⟩, hq⟩
    have hstart : p.isPrefixOf (p ++ (y ++ b)) = true :=
      List.isPrefixOf_iff_prefix.mpr (List.prefix_append _ _)
    obtain ⟨z, hz⟩ := firstSuffix_append (p := (p.isPrefixOf ·)) (by simp [hp]) hstart x
    have hdrop : (z ++ (p ++ (y ++ b))).drop p.length = (z ++ p ++ y).drop p.length ++ b := by
      rw [← List.drop_append_of_le_length (by simp; omega)]
      simp
    refine ⟨z ++ (p ++ (y ++ b)), by simpa using hz, ?_⟩
    rw [hdrop, decide_eq_true_eq]
    exact hq.trans (List.suffix_append _ _).isInfix

/-- A text that cannot hold the second pattern adds no match on the right. -/
theorem followedBy_left [DecidableEq α] {p q : List α} (hp : p ≠ []) (hcq : c ∉ q)
    {x : List α} (hx : ¬ q <:+: x) (u : List α) :
    followedBy p q (u ++ c :: x) = followedBy p q u := by
  rw [Bool.eq_iff_iff, followedBy_iff hp, followedBy_iff hp]
  constructor
  · rintro ⟨a, b, heq, ha, hb⟩
    obtain ⟨a', rfl, hb'⟩ | ⟨b', rfl, rfl⟩ := List.append_eq_append_iff.mp heq
    · have hpart : q <:+: c :: x := by
        rw [hb']
        exact hb.trans (List.suffix_append _ _).isInfix
      obtain hnil | hright := (infix_append_cons hcq [] x).mp hpart
      · rw [List.infix_nil] at hnil
        subst hnil
        exact absurd List.nil_infix hx
      · exact absurd hright hx
    · refine ⟨a, b', rfl, ha, ?_⟩
      obtain hleft | hright := (infix_append_cons hcq b' x).mp hb
      · exact hleft
      · exact absurd hright hx
  · rintro ⟨a, b, rfl, ha, hb⟩
    exact ⟨a, b ++ c :: x, by simp, ha, hb.trans (List.prefix_append _ _).isInfix⟩

/-- A text that cannot hold the first pattern adds no match on the left. -/
theorem followedBy_right [DecidableEq α] {p q : List α} (hp : p ≠ []) (hcp : c ∉ p)
    {u : List α} (hu : ¬ p <:+: u) (x : List α) :
    followedBy p q (u ++ c :: x) = followedBy p q x := by
  rw [Bool.eq_iff_iff, followedBy_iff hp, followedBy_iff hp]
  constructor
  · rintro ⟨a, b, heq, ha, hb⟩
    obtain ⟨a', rfl, hb'⟩ | ⟨b', rfl, rfl⟩ := List.append_eq_append_iff.mp heq
    · cases a' with
      | nil => exact absurd (by simpa using ha) hu
      | cons d a' =>
        obtain ⟨rfl, rfl⟩ := List.cons.inj hb'
        obtain hleft | hright := (infix_append_cons hcp u a').mp ha
        · exact absurd hleft hu
        · exact ⟨a', b, rfl, hright, hb⟩
    · exact absurd (ha.trans (List.prefix_append _ _).isInfix) hu
  · rintro ⟨a, b, rfl, ha, hb⟩
    exact ⟨u ++ c :: a, b, by simp, ha.trans ((List.suffix_cons c a).trans
      (List.suffix_append _ _)).isInfix, hb⟩

theorem takeWhile_append_cons {p : α → Bool} (hc : p c = false) (a b : List α) :
    (a ++ c :: b).takeWhile p = a.takeWhile p := by
  induction a with
  | nil => simp [hc]
  | cons d a ih => simp [List.takeWhile_cons, ih]

variable [DecidableEq α]

/-- What a separator ends, in order; `cur` is the line read so far. -/
def linesFrom (sep : α) (cur : List α) : List α → List (List α)
  | [] => []
  | c :: s => if c = sep then cur :: linesFrom sep [] s else linesFrom sep (cur ++ [c]) s

theorem linesFrom_append {sep : α} {a : List α} (ha : sep ∉ a) (cur s : List α) :
    linesFrom sep cur (a ++ sep :: s) = (cur ++ a) :: linesFrom sep [] s := by
  induction a generalizing cur with
  | nil => simp [linesFrom]
  | cons c a ih =>
    rw [List.mem_cons, not_or] at ha
    obtain ⟨hc, ha⟩ := ha
    rw [List.cons_append, linesFrom, if_neg (Ne.symm hc), ih ha]
    simp

theorem linesFrom_flatMap {sep : α} {lines : List (List α)} (h : ∀ l ∈ lines, sep ∉ l) :
    linesFrom sep [] (lines.flatMap (· ++ [sep])) = lines := by
  induction lines with
  | nil => rfl
  | cons l lines ih =>
    rw [List.forall_mem_cons] at h
    rw [List.flatMap_cons, List.append_assoc, List.singleton_append, linesFrom_append h.1, ih h.2]
    simp

end Separators

end Aomp.Foundations
