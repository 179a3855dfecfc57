import Aomp.Foundations.TransitionSystem
import Mathlib.Algebra.BigOperators.Fin
import Mathlib.Algebra.Order.BigOperators.Group.Finset

/-!
# Runs with charged steps

The number of steps of some kind along a run is bounded by a budget when a potential pays for
them: a charged step lowers the potential, and a step that raises it adds as much to the budget.
-/
namespace Aomp.Foundations

variable {σ α : Type*} {step : σ → α → Option σ} {ok : σ → α → Prop} {charged : σ → α → σ → Prop}
  {init s : σ} {n : ℕ}

/-- The states of all runs from `init` whose every step meets `ok`, with the number of their
charged steps. -/
inductive ChargedRun (step : σ → α → Option σ) (ok : σ → α → Prop) (charged : σ → α → σ → Prop)
    (init : σ) : σ → ℕ → Prop
  | refl : ChargedRun step ok charged init init 0
  | free {s s' : σ} {a : α} {n : ℕ} : ChargedRun step ok charged init s n → ok s a →
      step s a = some s' → ¬ charged s a s' → ChargedRun step ok charged init s' n
  | paid {s s' : σ} {a : α} {n : ℕ} : ChargedRun step ok charged init s n → ok s a →
      step s a = some s' → charged s a s' → ChargedRun step ok charged init s' (n + 1)

theorem ChargedRun.reachable (h : ChargedRun step ok charged init s n) :
    Reachable step ok init s := by
  induction h with
  | refl => exact .refl
  | free _ hok hs _ ih => exact ih.tail hok hs
  | paid _ hok hs _ ih => exact ih.tail hok hs

theorem Reachable.exists_charged (charged : σ → α → σ → Prop) (h : Reachable step ok init s) :
    ∃ n, ChargedRun step ok charged init s n := by
  induction h with
  | refl => exact ⟨0, .refl⟩
  | @tail s s' a _ hok hs ih =>
    obtain ⟨n, hn⟩ := ih
    by_cases hc : charged s a s'
    · exact ⟨n + 1, hn.paid hok hs hc⟩
    · exact ⟨n, hn.free hok hs hc⟩

/-- The potential pays for the charged steps out of the budget. -/
theorem ChargedRun.le_budget (potential budget : σ → ℕ)
    (hinit : potential init ≤ budget init)
    (hfree : ∀ s a s', Reachable step ok init s → ok s a → step s a = some s' →
      potential s' + budget s ≤ potential s + budget s')
    (hpaid : ∀ s a s', Reachable step ok init s → ok s a → step s a = some s' → charged s a s' →
      potential s' + 1 + budget s ≤ potential s + budget s')
    (h : ChargedRun step ok charged init s n) : potential s + n ≤ budget s := by
  induction h with
  | refl => exact hinit
  | free hr hok hs _ ih =>
    have := hfree _ _ _ hr.reachable hok hs
    omega
  | paid hr hok hs hc ih =>
    have := hpaid _ _ _ hr.reachable hok hs hc
    omega

theorem sum_add_le_of_ne {n : ℕ} {f g : Fin n → ℕ} (w : Fin n) (k c : ℕ)
    (hother : ∀ v, v ≠ w → g v ≤ f v + k) (hself : g w + n * k + c ≤ f w) :
    ∑ v, g v + c ≤ ∑ v, f v := by
  have hrest : ∑ v ∈ Finset.univ.erase w, g v ≤ ∑ v ∈ Finset.univ.erase w, f v + n * k := by
    calc ∑ v ∈ Finset.univ.erase w, g v
      _ ≤ ∑ v ∈ Finset.univ.erase w, (f v + k) :=
        Finset.sum_le_sum fun v hv => hother v (Finset.ne_of_mem_erase hv)
      _ = ∑ v ∈ Finset.univ.erase w, f v + (n - 1) * k := by
        rw [Finset.sum_add_distrib, Finset.sum_const, Finset.card_erase_of_mem (Finset.mem_univ w),
          Finset.card_univ, Fintype.card_fin, smul_eq_mul]
      _ ≤ ∑ v ∈ Finset.univ.erase w, f v + n * k :=
        Nat.add_le_add_left (Nat.mul_le_mul_right k (Nat.sub_le n 1)) _
  have hf := Finset.add_sum_erase Finset.univ f (Finset.mem_univ w)
  have hg := Finset.add_sum_erase Finset.univ g (Finset.mem_univ w)
  omega

theorem sum_le_add {n : ℕ} {f g : Fin n → ℕ} (k : ℕ) (h : ∀ v, g v ≤ f v + k) :
    ∑ v, g v ≤ ∑ v, f v + n * k := by
  calc ∑ v, g v
    _ ≤ ∑ v, (f v + k) := Finset.sum_le_sum fun v _ => h v
    _ = ∑ v, f v + n * k := by
      rw [Finset.sum_add_distrib, Finset.sum_const, Finset.card_univ, Fintype.card_fin, smul_eq_mul]

end Aomp.Foundations
