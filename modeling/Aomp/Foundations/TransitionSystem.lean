import Mathlib.Logic.Relation
import Mathlib.Data.List.Basic

/-!
# Transition systems whose runs meet an assumption

A system is a partial step function on states and actions: `none` means that the
action is not enabled. An assumption `ok` speaks about the state a step leaves and
the action it takes, so an assumption on whole runs (a counter that does not wrap
during an attempt, a callee that stays inside its contract) is one predicate here.
-/
namespace Aomp.Foundations

variable {σ α : Type*} {step : σ → α → Option σ} {ok : σ → α → Prop} {init s s' : σ}

/-- The states of all runs from `init` whose every step meets `ok`. -/
inductive Reachable (step : σ → α → Option σ) (ok : σ → α → Prop) (init : σ) : σ → Prop
  | refl : Reachable step ok init init
  | tail {s s' : σ} {a : α} :
      Reachable step ok init s → ok s a → step s a = some s' → Reachable step ok init s'

theorem Reachable.invariant {P : σ → Prop} (h : Reachable step ok init s) (base : P init)
    (keep : ∀ s a s', P s → ok s a → step s a = some s' → P s') : P s := by
  induction h with
  | refl => exact base
  | tail _ hok hstep ih => exact keep _ _ _ ih hok hstep

theorem Reachable.invariant₂ {P Q : σ → Prop} (h : Reachable step ok init s)
    (known : ∀ s, Reachable step ok init s → P s) (base : Q init)
    (keep : ∀ s a s', P s → Q s → ok s a → step s a = some s' → Q s') : Q s := by
  induction h with
  | refl => exact base
  | tail hr hok hstep ih => exact keep _ _ _ (known _ hr) ih hok hstep

theorem Reachable.trans {t : σ} (h : Reachable step ok init s) (h' : Reachable step ok s t) :
    Reachable step ok init t := by
  induction h' with
  | refl => exact h
  | tail _ hok hstep ih => exact ih.tail hok hstep

theorem Reachable.weaken {ok' : σ → α → Prop} (h : Reachable step ok init s)
    (hw : ∀ s a, ok s a → ok' s a) : Reachable step ok' init s := by
  induction h with
  | refl => exact .refl
  | tail _ hok hstep ih => exact ih.tail (hw _ _ hok) hstep

def runChecked (step : σ → α → Option σ) (ok : σ → α → Bool) : σ → List α → Option σ
  | s, [] => some s
  | s, a :: as => if ok s a then (step s a).bind fun s' => runChecked step ok s' as else none

theorem Reachable.of_runChecked {okb : σ → α → Bool} (hok : ∀ s a, okb s a = true → ok s a) :
    ∀ (as : List α) (s : σ), runChecked step okb s as = some s' → Reachable step ok s s'
  | [], s, h => by
    obtain rfl : s = s' := by simpa [runChecked] using h
    exact .refl
  | a :: as, s, h => by
    unfold runChecked at h
    split_ifs at h with hb
    obtain ⟨t, ht, hrest⟩ := Option.bind_eq_some_iff.mp h
    exact (Reachable.refl.tail (hok s a hb) ht).trans (Reachable.of_runChecked hok as t hrest)

/-- No action is enabled. -/
def Stuck (step : σ → α → Option σ) (s : σ) : Prop := ∀ a, step s a = none

/-- Where every step short of a goal keeps an invariant and decreases a measure, and no state
short of the goal is stuck, some run from `s` comes to the goal. -/
theorem Reachable.exists_goal (μ : σ → ℕ) {P goal : σ → Prop} (hok : ∀ s a, ok s a)
    (enabled : ∀ s, P s → ¬ goal s → ¬ Stuck step s)
    (keep : ∀ s a s', P s → ¬ goal s → step s a = some s' → P s' ∧ μ s' < μ s) {s : σ} (hs : P s) :
    ∃ t, Reachable step ok s t ∧ goal t := by
  induction hn : μ s using Nat.strongRecOn generalizing s with
  | _ n ih =>
    by_cases hgoal : goal s
    · exact ⟨s, .refl, hgoal⟩
    · obtain ⟨a, ha⟩ := not_forall.mp (enabled s hs hgoal)
      obtain ⟨s₁, hstep⟩ := Option.ne_none_iff_exists'.mp ha
      obtain ⟨hP, hlt⟩ := keep s a s₁ hs hgoal hstep
      obtain ⟨t, hr, ht⟩ := ih (μ s₁) (hn ▸ hlt) hP rfl
      exact ⟨t, (Reachable.refl.tail (hok s a) hstep).trans hr, ht⟩

theorem Reachable.exists_stuck (μ : σ → ℕ) {P : σ → Prop} (hok : ∀ s a, ok s a)
    (keep : ∀ s a s', P s → step s a = some s' → P s' ∧ μ s' < μ s) {s : σ} (hs : P s) :
    ∃ t, Reachable step ok s t ∧ Stuck step t :=
  Reachable.exists_goal μ hok (fun _ _ hnot => hnot) (fun s a s' hP _ => keep s a s' hP) hs

/-- Where every step keeps an invariant and decreases a measure, no run is longer than the
measure of its first state. -/
theorem length_le_of_measure (μ : σ → ℕ) {P : σ → Prop}
    (keep : ∀ s a s', P s → step s a = some s' → P s' ∧ μ s' < μ s) (actions : List α) {s s' : σ}
    (hs : P s) (h : actions.foldlM step s = some s') : actions.length ≤ μ s := by
  induction actions generalizing s with
  | nil => simp
  | cons a rest ih =>
    rw [List.foldlM_cons] at h
    obtain ⟨s₁, hstep, hrest⟩ := Option.bind_eq_some_iff.mp h
    obtain ⟨hP, hlt⟩ := keep s a s₁ hs hstep
    have := ih hP hrest
    rw [List.length_cons]
    omega

end Aomp.Foundations
