import Mathlib.Data.List.Nodup
import Mathlib.Data.List.Perm.Basic
import Mathlib.Data.List.Range
import Aomp.Foundations.TreeReduction

/-!
# Loops with a stride

A loop that is split over workers gives each worker every `m`-th iteration from its own start
on. The parts of `n ≤ m` workers are disjoint; together they are the iterations whose number
modulo `m` is that of a worker, and all of them if there are `m`. With an operation that is
associative and commutative the combined results of the workers are that of one loop.
-/
namespace Aomp.Foundations

/-- The values of `i` in `for (i = start; i < stop; i += step)`; no loop without a step. -/
def stridedLoop (start stop step : ℕ) : List ℕ :=
  if 0 < step ∧ start < stop then start :: stridedLoop (start + step) stop step else []
termination_by stop - start

variable {start stop step i n m : ℕ}

theorem stridedLoop_of_lt (hstep : 0 < step) (h : start < stop) :
    stridedLoop start stop step = start :: stridedLoop (start + step) stop step := by
  rw [stridedLoop, if_pos ⟨hstep, h⟩]

theorem stridedLoop_of_le (h : stop ≤ start) : stridedLoop start stop step = [] := by
  rw [stridedLoop, if_neg (by omega)]

theorem mem_stridedLoop (hstep : 0 < step) :
    i ∈ stridedLoop start stop step ↔ i < stop ∧ ∃ j, i = start + step * j := by
  induction hn : stop - start using Nat.strongRecOn generalizing start with
  | _ n ih =>
    by_cases h : start < stop
    · rw [stridedLoop_of_lt hstep h, List.mem_cons, ih _ (by omega) rfl]
      constructor
      · rintro (rfl | ⟨hi, j, rfl⟩)
        · exact ⟨h, 0, by simp⟩
        · exact ⟨hi, j + 1, by ring⟩
      · rintro ⟨hi, j, rfl⟩
        cases j with
        | zero => exact .inl (by simp)
        | succ j => exact .inr ⟨hi, j, by ring⟩
    · rw [stridedLoop_of_le (not_lt.mp h)]
      simp only [List.not_mem_nil, false_iff, not_and, not_exists]
      intro hi j hj
      exact h (by omega)

theorem stridedLoop_nodup (hstep : 0 < step) : (stridedLoop start stop step).Nodup := by
  induction hn : stop - start using Nat.strongRecOn generalizing start with
  | _ n ih =>
    by_cases h : start < stop
    · rw [stridedLoop_of_lt hstep h]
      refine List.nodup_cons.mpr ⟨fun hmem => ?_, ih _ (by omega) rfl⟩
      obtain ⟨-, j, hj⟩ := (mem_stridedLoop hstep).mp hmem
      omega
    · rw [stridedLoop_of_le (not_lt.mp h)]
      exact List.nodup_nil

/-- The number of the iteration that reaches `i`. -/
def iteration (start step i : ℕ) : ℕ := (i - start) / step

theorem iteration_add_mul (hstep : 0 < step) (j : ℕ) :
    iteration start step (start + step * j) = j := by
  rw [iteration, Nat.add_sub_cancel_left, Nat.mul_div_cancel_left j hstep]

/-- The parts of the workers are the iterations with the number of a worker. -/
theorem stridedLoop_split (hstep : 0 < step) (hm : 0 < m) (hn : n ≤ m) :
    ((List.range n).flatMap fun k => stridedLoop (start + step * k) stop (step * m)).Perm
      ((stridedLoop start stop step).filter fun i => iteration start step i % m < n) := by
  have hpos : 0 < step * m := Nat.mul_pos hstep hm
  have hpart : ∀ k < n, ∀ i ∈ stridedLoop (start + step * k) stop (step * m),
      iteration start step i % m = k := by
    intro k hk i hi
    obtain ⟨-, j, rfl⟩ := (mem_stridedLoop hpos).mp hi
    have hsum : start + step * k + step * m * j = start + step * (k + m * j) := by ring
    rw [hsum, iteration_add_mul hstep, Nat.add_mul_mod_self_left, Nat.mod_eq_of_lt (by omega)]
  apply (List.perm_ext_iff_of_nodup ?_ ((stridedLoop_nodup hstep).filter _)).mpr
  · intro i
    simp only [List.mem_flatMap, List.mem_range, List.mem_filter, decide_eq_true_eq]
    constructor
    · rintro ⟨k, hk, hi⟩
      refine ⟨?_, by rw [hpart k hk i hi]; exact hk⟩
      obtain ⟨hlt, j, rfl⟩ := (mem_stridedLoop hpos).mp hi
      exact (mem_stridedLoop hstep).mpr ⟨hlt, k + m * j, by ring⟩
    · rintro ⟨hi, hk⟩
      obtain ⟨hlt, j, rfl⟩ := (mem_stridedLoop hstep).mp hi
      rw [iteration_add_mul hstep] at hk
      refine ⟨j % m, hk, (mem_stridedLoop hpos).mpr ⟨hlt, j / m, ?_⟩⟩
      rw [add_assoc, mul_assoc, ← mul_add, Nat.mod_add_div]
  · rw [List.nodup_flatMap]
    refine ⟨fun k _ => stridedLoop_nodup hpos, ?_⟩
    apply List.nodup_range.pairwise_of_forall_ne
    intro k hk k' hk' hne i hi hi'
    rw [List.mem_range] at hk hk'
    exact hne ((hpart k hk i hi).symm.trans (hpart k' hk' i hi'))

section Fold

variable {T : Type*} {op : T → T → T} {e : T} {g : ℕ → T}

theorem foldl_eq_op (assoc : ∀ a b c, op (op a b) c = op a (op b c)) (neutral : ∀ a, op a e = a)
    (a : T) (l : List ℕ) :
    l.foldl (fun v i => op v (g i)) a = op a (l.foldl (fun v i => op v (g i)) e) := by
  induction l using List.reverseRecOn with
  | nil => exact (neutral a).symm
  | append_singleton l i ih => rw [List.foldl_append, List.foldl_append, ih]; exact assoc a _ _

theorem foldRange_succ (op : T → T → T) (a : T) (f : ℕ → T) (n : ℕ) :
    foldRange op a f (n + 1) = op (foldRange op a f n) (f n) := by
  rw [foldRange, List.range_succ, List.foldl_append]
  rfl

/-- Combining the folds of the parts is the fold of all parts. -/
theorem foldRange_parts (assoc : ∀ a b c, op (op a b) c = op a (op b c))
    (neutral : ∀ a, op a e = a) (part : ℕ → List ℕ) (a : T) (n : ℕ) :
    foldRange op a (fun k => (part k).foldl (fun v i => op v (g i)) e) n =
      ((List.range n).flatMap part).foldl (fun v i => op v (g i)) a := by
  induction n with
  | zero => rfl
  | succ n ih =>
    rw [foldRange_succ, ih, List.range_succ, List.flatMap_append, List.foldl_append,
      List.flatMap_singleton]
    exact (foldl_eq_op assoc neutral _ _).symm

theorem foldl_perm (assoc : ∀ a b c, op (op a b) c = op a (op b c))
    (comm : ∀ a b, op a b = op b a) {l l' : List ℕ} (h : l.Perm l') (a : T) :
    l.foldl (fun v i => op v (g i)) a = l'.foldl (fun v i => op v (g i)) a := by
  apply h.foldl_eq'
  intro x _ y _ v
  rw [assoc, assoc, comm (g x)]

end Fold

end Aomp.Foundations
