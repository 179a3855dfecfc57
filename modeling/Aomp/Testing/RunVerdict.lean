import Mathlib.Data.Int.ModEq
import Aomp.Testing.UnexpectedFails

/-!
# Whether green means green

The total of the unexpected fails is compared with 0 for the summary and taken modulo 256 for the exit
status, and the scripts that failed are part of the summary only. When the files of the suites account
for their tests, the total is the number of tests that failed unexpectedly.
-/

namespace Aomp.Testing

/-- Some suite that counts has an unexpected fail. -/
def SomeUnexpectedFail (epsdb : Bool) (steps : List Step) : Prop :=
  ∃ r, .copyresults r ∈ steps ∧ r.suite.counted epsdb ∧ r.unexpectedFails.Nonempty

/-- Some `checkrc` was not called with 0. -/
def ScriptError (steps : List Step) : Prop := ∃ rc, rc ≠ 0 ∧ .checkrc rc ∈ steps

/-- Exit status, summary and results agree. -/
def GreenMeansGreen (epsdb : Bool) (steps : List Step) : Prop :=
  ((run epsdb .init steps).exitStatus = 0 ↔ (run epsdb .init steps).pass) ∧
  ((run epsdb .init steps).pass ↔ ¬ SomeUnexpectedFail epsdb steps ∧ ¬ ScriptError steps)

def unexpectedOf (epsdb : Bool) : Step → ℕ
  | .checkrc _ => 0
  | .copyresults r => if r.suite.counted epsdb then r.unexpectedFails.card else 0

def unexpectedTotal (epsdb : Bool) (steps : List Step) : ℕ := (steps.map (unexpectedOf epsdb)).sum

/-- The files of each suite that counts account for its tests when its turn comes. -/
def AllFilesCount (epsdb : Bool) (steps : List Step) : Prop :=
  ∀ pre r, pre ++ [.copyresults r] <+: steps → r.suite.counted epsdb →
    FilesCount (run epsdb .init pre) r

theorem unexpectedTotal_eq_zero_iff (epsdb : Bool) (steps : List Step) :
    unexpectedTotal epsdb steps = 0 ↔ ¬ SomeUnexpectedFail epsdb steps := by
  rw [unexpectedTotal, List.sum_eq_zero_iff, SomeUnexpectedFail, not_exists]
  constructor
  · rintro h r ⟨hr, hcounted, hfail⟩
    have hzero := h _ (List.mem_map_of_mem hr)
    rw [unexpectedOf, if_pos hcounted] at hzero
    exact hfail.ne_empty (Finset.card_eq_zero.mp hzero)
  · intro h n hn
    obtain ⟨st, hst, rfl⟩ := List.mem_map.mp hn
    cases st with
    | checkrc rc => rfl
    | copyresults r =>
      rw [unexpectedOf]
      split_ifs with hcounted
      · rw [Finset.card_eq_zero, ← Finset.not_nonempty_iff_eq_empty]
        exact fun hfail => h r ⟨hst, hcounted, hfail⟩
      · rfl

theorem step_total {epsdb : Bool} {s : Script} {st : Step}
    (h : ∀ r, st = .copyresults r → r.suite.counted epsdb → FilesCount s r) :
    (step epsdb s st).totalunexpectedfails = s.totalunexpectedfails + unexpectedOf epsdb st := by
  cases st with
  | checkrc rc =>
    simp only [step, unexpectedOf]
    split_ifs <;> simp
  | copyresults r =>
    rw [step, copyresults_total, unexpectedOf]
    split_ifs with hcounted
    · rw [(h r rfl hcounted).count_eq]
    · rfl

theorem run_total {epsdb : Bool} {steps : List Step} (h : AllFilesCount epsdb steps) :
    (run epsdb .init steps).totalunexpectedfails = unexpectedTotal epsdb steps := by
  induction steps using List.reverseRecOn with
  | nil => rfl
  | append_singleton steps st ih =>
    have hpre : AllFilesCount epsdb steps := fun pre r hr =>
      h pre r (hr.trans (List.prefix_append _ _))
    have hrun : run epsdb .init (steps ++ [st]) = step epsdb (run epsdb .init steps) st := by
      simp [run]
    rw [hrun, step_total, ih hpre, unexpectedTotal, unexpectedTotal, List.map_append, List.sum_append]
    · simp
    · rintro r rfl
      exact h steps r (List.prefix_refl _)

theorem run_scriptfails (epsdb : Bool) (s : Script) (steps : List Step) :
    (run epsdb s steps).scriptfails = 0 ↔ s.scriptfails = 0 ∧ ¬ ScriptError steps := by
  induction steps generalizing s with
  | nil => simp [run, ScriptError]
  | cons st steps ih =>
    have hrun : run epsdb s (st :: steps) = run epsdb (step epsdb s st) steps := rfl
    rw [hrun, ih]
    cases st with
    | checkrc rc =>
      by_cases hrc : rc = 0
      · simp [step, hrc, ScriptError]
      · refine iff_of_false (fun h => ?_) fun h => h.2 ⟨rc, hrc, List.mem_cons_self⟩
        simp [step, hrc] at h
    | copyresults r => simp [step, copyresults_scriptfails, ScriptError]

/-- Where the files of the suites account for their tests, exit status, summary and results agree
exactly when the number of unexpected fails is not a multiple of 256 unless nothing failed at all. -/
theorem greenMeansGreen_iff (epsdb : Bool) (steps : List Step) (h : AllFilesCount epsdb steps) :
    GreenMeansGreen epsdb steps ↔
      (SomeUnexpectedFail epsdb steps ∨ ScriptError steps → ¬ 256 ∣ unexpectedTotal epsdb steps) := by
  have hfails : (run epsdb .init steps).scriptfails = 0 ↔ ¬ ScriptError steps := by
    rw [run_scriptfails]
    simp [Script.init]
  have hzero := unexpectedTotal_eq_zero_iff epsdb steps
  have hpass : (run epsdb .init steps).pass ↔
      ¬ SomeUnexpectedFail epsdb steps ∧ ¬ ScriptError steps := by
    rw [← hfails, ← hzero]
    simp [Script.pass, run_total h]
  have hexit : (run epsdb .init steps).exitStatus = 0 ↔ 256 ∣ unexpectedTotal epsdb steps := by
    rw [Script.exitStatus, run_total h]
    omega
  unfold GreenMeansGreen
  rw [hpass, hexit]
  by_cases hfail : SomeUnexpectedFail epsdb steps
  · simp [hfail]
  · have hdvd : 256 ∣ unexpectedTotal epsdb steps := by
      rw [hzero.mpr hfail]
      exact dvd_zero _
    simp [hfail, hdvd]

theorem allFilesCount_oneFail : AllFilesCount false [.copyresults oneFail] := by
  intro pre r hpre hcounted
  obtain ⟨rest, hrest⟩ := hpre
  cases pre with
  | nil =>
    obtain rfl := Step.copyresults.inj (List.cons.inj hrest).1
    have hnew : ∀ r', Step.copyresults r' ∈ [] → r'.suite ≠ oneFail.suite := by simp
    exact oneFail_filesCount _ (unread_of_new false hnew)
  | cons st pre =>
    have hlength := congrArg List.length hrest
    simp at hlength

/-- One test of the only suite failed: the summary says FAIL and the exit status is 1. -/
theorem greenMeansGreen_iff_oneFail : GreenMeansGreen false [.copyresults oneFail] ∧
    (run false .init [.copyresults oneFail]).exitStatus = 1 :=
  ⟨(greenMeansGreen_iff false _ allFilesCount_oneFail).mpr fun _ => by decide, by decide⟩

/-- A script that fails while all tests pass: the summary says FAIL and the exit status is 0. -/
theorem not_greenMeansGreen_scriptError :
    ¬ ∀ (epsdb : Bool) (steps : List Step), GreenMeansGreen epsdb steps := by
  intro hall
  have hagree := (hall false [.checkrc 1]).1.mp rfl
  exact absurd hagree (by decide)

end Aomp.Testing
