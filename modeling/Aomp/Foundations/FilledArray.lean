import Mathlib.Data.Nat.Notation
import Mathlib.Tactic.Common

/-!
# Arrays that are filled from the front

An entry of an array is `none` until it is written, and a store has to be inside of the array.
-/
namespace Aomp.Foundations

variable {α : Type*} {n : ℕ} {a : Vector (Option α) n} {l : List α}

/-- `a[i] = v`, `none` outside of the array. -/
def storeAt (a : Vector (Option α) n) (i : ℕ) (v : α) : Option (Vector (Option α) n) :=
  if h : i < n then some (a.set i (some v)) else none

/-- The first entries hold the list, and no other entry was written. -/
def FilledWith (a : Vector (Option α) n) (l : List α) : Prop :=
  l.length ≤ n ∧ ∀ i (h : i < n), a[i] = l[i]?

/-- How many entries were written. -/
def written (a : Vector (Option α) n) : ℕ := a.toList.countP Option.isSome

theorem filledWith_replicate : FilledWith (Vector.replicate n (none : Option α)) [] :=
  ⟨Nat.zero_le n, fun i h => by simp⟩

/-- A store behind the last entry appends to the list. -/
theorem FilledWith.store (h : FilledWith a l) (hlt : l.length < n) (v : α) :
    ∃ a', storeAt a l.length v = some a' ∧ FilledWith a' (l ++ [v]) := by
  refine ⟨a.set l.length (some v), dif_pos hlt, ?_, fun i hi => ?_⟩
  · rw [List.length_append, List.length_singleton]
    exact hlt
  · rw [Vector.getElem_set]
    split_ifs with heq
    · simp [← heq]
    · rw [h.2 i hi]
      rcases Nat.lt_or_gt_of_ne heq with hless | hless
      · rw [List.getElem?_eq_none (by omega), List.getElem?_eq_none (by simp; omega)]
      · rw [List.getElem?_append_left hless]

theorem FilledWith.toList_eq (h : FilledWith a l) :
    a.toList = l.map some ++ List.replicate (n - l.length) none := by
  apply List.ext_getElem
  · simp [Nat.add_sub_cancel' h.1]
  · intro i hi hi'
    have hn : i < n := by simpa using hi
    rw [Vector.getElem_toList, h.2 i hn, List.getElem_append]
    split_ifs with hlt
    · rw [List.length_map] at hlt
      simp [hlt]
    · rw [List.length_map, Nat.not_lt] at hlt
      simp [hlt]

theorem FilledWith.written_eq (h : FilledWith a l) : written a = l.length := by
  rw [written, h.toList_eq, List.countP_append, List.countP_map, List.countP_replicate]
  simp [Function.comp_def]

end Aomp.Foundations
