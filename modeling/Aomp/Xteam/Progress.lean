import Mathlib.Algebra.Order.BigOperators.Group.Finset
import Aomp.Xteam.TeamSteps

/-!
# Every run ends with all threads returned

Each step brings a wave closer to the end of its last call, so that the length of a run is
bounded, and a state in which nothing can move is one in which all waves are done.
-/
namespace Aomp.Xteam

open Foundations

variable {T : Type*} {K : Kernel T} {m : Memory T} {s s' : State T} {v : Wave T} {t w c off : ℕ}
  {r : Round}

namespace Kernel

def ahead (K : Kernel T) : Pc → ℕ
  | .work .threads => 22 + K.NumTeams + 8 * K.number_of_waves
  | .sync .threads off => 20 + K.NumTeams + 4 * K.number_of_waves + 4 * off
  | .own .threads off => 19 + K.NumTeams + 4 * K.number_of_waves + 4 * off
  | .other .threads off => 18 + K.NumTeams + 4 * K.number_of_waves + 4 * off
  | .put .threads off => 17 + K.NumTeams + 4 * K.number_of_waves + 4 * off
  | .load .threads => 17 + K.NumTeams + 4 * K.number_of_waves
  | .add | .saveTeam => 16 + K.NumTeams + 4 * K.number_of_waves
  | .inc => 15 + K.NumTeams + 4 * K.number_of_waves
  | .saveTd => 14 + K.NumTeams + 4 * K.number_of_waves
  | .tdSync => 13 + K.NumTeams + 4 * K.number_of_waves
  | .test => 12 + K.NumTeams + 4 * K.number_of_waves
  | .loadTeams => 11 + K.NumTeams + 4 * K.number_of_waves
  | .teamsSync => 10 + K.NumTeams + 4 * K.number_of_waves
  | .work .teams => 9 + K.NumTeams + 4 * K.number_of_waves
  | .sync .teams off => 8 + K.NumTeams + 4 * off
  | .own .teams off => 7 + K.NumTeams + 4 * off
  | .other .teams off => 6 + K.NumTeams + 4 * off
  | .put .teams off => 5 + K.NumTeams + 4 * off
  | .load .teams => 5 + K.NumTeams
  | .readResult => 4 + K.NumTeams
  | .tail off => 3 + (K.NumTeams - off)
  | .writeResult => 2
  | .endSync => 1
  | .done => 0

def waveMeasure (K : Kernel T) (v : Wave T) : ℕ :=
  (K.calls - v.call) * (23 + K.NumTeams + 8 * K.number_of_waves) + K.ahead v.pc

def measure (K : Kernel T) (s : State T) : ℕ :=
  ∑ t ∈ Finset.range K.NumTeams, ∑ w ∈ Finset.range K.number_of_waves,
    K.waveMeasure ((s.teams t).waves w)

theorem waveMeasure_enter (h : v.pc ≠ .done) :
    K.waveMeasure (K.enter t w (v.call + 1) v) < K.waveMeasure v := by
  have hpos : 0 < K.ahead v.pc := by
    cases hpc : v.pc with
    | done => exact absurd hpc h
    | work r => cases r <;> simp [ahead]
    | sync r off => cases r <;> simp [ahead]
    | own r off => cases r <;> simp [ahead]
    | other r off => cases r <;> simp [ahead]
    | put r off => cases r <;> simp [ahead]
    | load r => cases r <;> simp [ahead]
    | _ => simp [ahead]
  unfold enter waveMeasure
  split_ifs with hlt
  · have hsub : K.calls - v.call = K.calls - (v.call + 1) + 1 := by omega
    have hwork : K.ahead (.work .threads) = 22 + K.NumTeams + 8 * K.number_of_waves := rfl
    dsimp only
    rw [hsub, Nat.add_mul, hwork]
    omega
  · have hdone : K.ahead .done = 0 := rfl
    dsimp only
    rw [Nat.sub_eq_zero_of_le (by omega : K.calls ≤ v.call + 1), hdone]
    omega

theorem waveMeasure_ahead {v' : Wave T} (hcall : v'.call = v.call)
    (h : K.ahead v'.pc < K.ahead v.pc) : K.waveMeasure v' < K.waveMeasure v := by
  unfold waveMeasure
  rw [hcall]
  omega

theorem waveMeasure_nextRound (hpc : v.pc = .work r ∧ off = K.number_of_waves ∨
    v.pc = .put r off ∧ 0 < off) :
    K.waveMeasure (K.nextRound t w r off v) < K.waveMeasure v := by
  have hpos := K.number_of_waves_pos
  have hload : K.ahead (.load r) < K.ahead v.pc := by
    obtain ⟨h, rfl⟩ | ⟨h, hoff⟩ := hpc <;> rw [h] <;> cases r <;> simp only [ahead] <;> omega
  have hsync : 0 < off / 2 → K.ahead (.sync r (off / 2)) < K.ahead v.pc := by
    intro hhalf
    obtain ⟨h, rfl⟩ | ⟨h, hoff⟩ := hpc <;> rw [h] <;> cases r <;> simp only [ahead] <;> omega
  have hdone : v.pc ≠ .done := by
    rintro h
    simp [h] at hpc
  unfold nextRound leave
  by_cases hhalf : 0 < off / 2
  · rw [if_pos hhalf]
    exact waveMeasure_ahead rfl (hsync hhalf)
  · rw [if_neg hhalf]
    by_cases hw : w = 0
    · rw [if_pos hw]
      exact waveMeasure_ahead rfl hload
    · rw [if_neg hw]
      cases r with
      | teams => exact waveMeasure_ahead rfl (lt_trans (by simp only [ahead]; omega) hload)
      | threads =>
        by_cases hf : K.IS_FAST = true
        · simp only [hf, if_true]
          exact waveMeasure_enter hdone
        · simp only [hf, Bool.false_eq_true, if_false]
          exact waveMeasure_ahead rfl (lt_trans (by simp only [ahead]; omega) hload)

/-- A step of one wave changes that wave and brings it closer to the end. -/
theorem runWave_measure (hinv : K.Inv m s) (ht : t < K.NumTeams) (hw : w < K.number_of_waves)
    (h : K.runWave t w s = some s') : ∃ v', K.waveMeasure v' < K.waveMeasure ((s.teams t).waves w) ∧
      ∀ t', (s'.teams t').waves =
        if t' = t then Function.update (s.teams t).waves w v' else (s.teams t').waves := by
  have hother : ∀ (b : Team T) t', (Function.update s.teams t b t').waves =
      if t' = t then b.waves else (s.teams t').waves := by
    intro b t'
    by_cases htt : t' = t
    · subst htt
      simp
    · simp [htt]
  unfold Kernel.runWave at h
  cases hpc : ((s.teams t).waves w).pc <;> simp only [hpc] at h
  case work r =>
    obtain rfl := Option.some.inj h
    exact ⟨_, waveMeasure_nextRound (.inl ⟨hpc, rfl⟩), fun t' => hother _ t'⟩
  case own r off =>
    obtain rfl := Option.some.inj h
    refine ⟨_, waveMeasure_ahead ?_ ?_, fun t' => hother _ t'⟩
    · rfl
    · rw [hpc]
      cases r <;> simp [ahead]
  case other r off =>
    obtain rfl := Option.some.inj h
    refine ⟨_, waveMeasure_ahead ?_ ?_, fun t' => hother _ t'⟩
    · rfl
    · rw [hpc]
      cases r <;> simp [ahead]
  case put r off =>
    obtain ⟨ph, hteam⟩ := hinv.team t ht
    have hwave := hteam.wave w hw
    simp only [WaveInv, hpc] at hwave
    obtain ⟨-, rfl, -⟩ := hwave
    obtain ⟨i, rfl⟩ := hteam.phase.off_pow
    obtain rfl := Option.some.inj h
    exact ⟨_, waveMeasure_nextRound (.inr ⟨hpc, by positivity⟩), fun t' => hother _ t'⟩
  case load r =>
    cases r with
    | threads =>
      obtain rfl := Option.some.inj h
      refine ⟨_, waveMeasure_ahead ?_ ?_, fun t' => hother _ t'⟩
      · rfl
      · rw [hpc]
        dsimp only
        split_ifs <;> simp [ahead]
    | teams =>
      obtain rfl := Option.some.inj h
      refine ⟨_, waveMeasure_ahead ?_ ?_, fun t' => hother _ t'⟩
      · rfl
      · rw [hpc]
        simp [ahead]
  case add =>
    obtain rfl := Option.some.inj h
    exact ⟨_, waveMeasure_enter (by simp [hpc]), fun t' => hother _ t'⟩
  case test =>
    obtain rfl := Option.some.inj h
    refine ⟨_, ?_, fun t' => hother _ t'⟩
    split_ifs
    · exact waveMeasure_ahead rfl (by rw [hpc]; simp [ahead])
    · exact waveMeasure_enter (by simp [hpc])
  case tail off =>
    obtain rfl := Option.some.inj h
    refine ⟨_, ?_, fun t' => hother _ t'⟩
    split_ifs
    · refine waveMeasure_ahead rfl ?_
      rw [hpc]
      simp only [ahead]
      omega
    · refine waveMeasure_ahead rfl ?_
      rw [hpc]
      simp only [ahead]
      omega
  all_goals
    first
    | cases h; done
    | obtain rfl := Option.some.inj h
      refine ⟨_, waveMeasure_ahead ?_ ?_, fun t' => hother _ t'⟩
      · rfl
      · rw [hpc]
        simp only [ahead]
        omega

theorem pass_measure (h : v.pc.waiting = true) : K.waveMeasure (K.pass t w v) < K.waveMeasure v := by
  unfold pass
  cases hpc : v.pc <;> simp only [hpc, Pc.waiting, Bool.false_eq_true] at h
  case sync r off =>
    refine waveMeasure_ahead rfl ?_
    rw [hpc]
    cases r <;> simp [ahead]
  case endSync => exact waveMeasure_enter (by simp [hpc])
  all_goals exact waveMeasure_ahead rfl (by rw [hpc]; simp [ahead])

theorem step_measure (hinv : K.Inv m s) {a : Action} (h : K.step s a = some s') :
    K.measure s' < K.measure s := by
  cases a with
  | run t w =>
    simp only [Kernel.step] at h
    split_ifs at h with hlt
    obtain ⟨v', hlt', hwaves⟩ := runWave_measure hinv hlt.1 hlt.2 h
    have hle : ∀ t', ∀ u, K.waveMeasure ((s'.teams t').waves u) ≤
        K.waveMeasure ((s.teams t').waves u) := by
      intro t' u
      rw [hwaves]
      split_ifs with htt
      · subst htt
        by_cases hu : u = w
        · subst hu
          rw [Function.update_self]
          exact hlt'.le
        · rw [Function.update_of_ne hu]
      · exact le_rfl
    refine Finset.sum_lt_sum (fun t' _ => Finset.sum_le_sum fun u _ => hle t' u)
      ⟨t, Finset.mem_range.mpr hlt.1, Finset.sum_lt_sum (fun u _ => hle t u)
        ⟨w, Finset.mem_range.mpr hlt.2, ?_⟩⟩
    rw [hwaves, if_pos rfl, Function.update_self]
    exact hlt'
  | release t =>
    simp only [Kernel.step] at h
    split_ifs at h with hlt
    obtain rfl := Option.some.inj h
    have hpos := K.number_of_waves_pos
    have hpass : ∀ u < K.number_of_waves, K.waveMeasure (K.pass t u ((s.teams t).waves u)) <
        K.waveMeasure ((s.teams t).waves u) := fun u hu => pass_measure (hlt.2 u hu)
    refine Finset.sum_lt_sum (fun t' _ => Finset.sum_le_sum fun u hu => ?_)
      ⟨t, Finset.mem_range.mpr hlt.1, Finset.sum_lt_sum (fun u hu => ?_)
        ⟨0, Finset.mem_range.mpr hpos, ?_⟩⟩
    · by_cases htt : t' = t
      · subst htt
        simpa [State.setTeam] using (hpass u (Finset.mem_range.mp hu)).le
      · simp [State.setTeam, htt]
    · simpa [State.setTeam] using (hpass u (Finset.mem_range.mp hu)).le
    · simpa [State.setTeam] using hpass 0 hpos

/-- A team in which one wave has ended has none that waits. -/
theorem TeamInv.not_waiting_of_done {arrived : ℕ → List ℕ} {r₀ : ℕ → T} {b : Team T} {ph : Phase}
    {u : ℕ} (h : K.TeamInv r₀ arrived t b ph) (hw : w < K.number_of_waves)
    (hu : u < K.number_of_waves) (hdone : (b.waves w).pc = .done) :
    (b.waves u).pc.waiting = false := by
  have hwave := h.wave w hw
  simp only [WaveInv, hdone] at hwave
  obtain ⟨-, -, hph⟩ := hwave
  obtain ⟨hcall, hwave'⟩ := h.wave u hu
  cases hpc : (b.waves u).pc <;> simp only [hpc] at hcall hwave' <;> simp only [Pc.waiting]
  case sync r off =>
    obtain ⟨hph', hoff⟩ := hwave'
    have hc := hcall (by simp)
    rcases hph with hph | ⟨-, -, hph⟩
    · have := (Phase.tree.inj (hph.symm.trans hph')).2.1
      omega
    · have := (Phase.tree.inj (hph.symm.trans hph')).2.2
      omega
  case tdSync =>
    obtain ⟨hph', hslow, -⟩ := hwave'
    have hc := hcall (by simp)
    rcases hph with hph | ⟨hf, -, -⟩
    · have := (Phase.tree.inj (hph.symm.trans hph')).2.1
      omega
    · simp [hslow] at hf
  case teamsSync =>
    rcases hph with hph | ⟨-, -, hph⟩ <;> exact absurd (hph.symm.trans hwave'.1) (by simp)
  case endSync =>
    rcases hph with hph | ⟨-, -, hph⟩ <;> exact absurd (hph.symm.trans hwave') (by simp)

theorem runWave_isSome (hwait : ((s.teams t).waves w).pc.waiting = false)
    (hdone : ((s.teams t).waves w).pc ≠ .done) : (K.runWave t w s).isSome := by
  cases hpc : ((s.teams t).waves w).pc <;>
    simp only [hpc, Pc.waiting, ne_eq, reduceCtorEq, not_true_eq_false] at hwait hdone
  case load r => cases r <;> simp [Kernel.runWave, hpc]
  all_goals simp [Kernel.runWave, hpc]

/-- A team that cannot move has returned. -/
theorem Inv.team_done_of_stuck (h : K.Inv m s) (ht : t < K.NumTeams)
    (hrun : ∀ w, K.step s (.run t w) = none) (hrelease : K.step s (.release t) = none) :
    ∀ w < K.number_of_waves, ((s.teams t).waves w).pc = .done := by
  intro w hw
  by_contra hdone
  obtain ⟨ph, hteam⟩ := h.team t ht
  have hstop : ∀ u < K.number_of_waves, ((s.teams t).waves u).pc.waiting = true ∨
      ((s.teams t).waves u).pc = .done := by
    intro u hu
    by_contra hnot
    have hsome := runWave_isSome (K := K) (s := s) (t := t) (w := u)
      (by simpa using fun hwait => hnot (.inl hwait)) fun hd => hnot (.inr hd)
    have hnone := hrun u
    simp only [Kernel.step, ht, hu, and_self, if_true] at hnone
    simp [hnone] at hsome
  have hwait := (hstop w hw).resolve_right hdone
  have hall : ∀ u < K.number_of_waves, ((s.teams t).waves u).pc.waiting = true := by
    intro u hu
    apply (hstop u hu).resolve_right
    intro hd
    rw [hteam.not_waiting_of_done hu hw hd] at hwait
    exact absurd hwait (by simp)
  simp only [Kernel.step] at hrelease
  rw [if_pos ⟨ht, hall⟩] at hrelease
  exact absurd hrelease (by simp)

theorem Inv.finished_of_stuck (h : K.Inv m s) (hstuck : Stuck K.step s) : K.Finished s :=
  fun _ ht => h.team_done_of_stuck ht (fun _ => hstuck _) (hstuck _)

theorem run_length_le (hK : K.Undisturbed m) (actions : List Action) (hinv : K.Inv m s)
    (h : actions.foldlM K.step s = some s') : actions.length ≤ K.measure s :=
  length_le_of_measure K.measure (fun _ _ _ hinv hstep => ⟨hinv.step hK hstep, step_measure hinv hstep⟩)
    actions hinv h

/-- No schedule runs for ever. -/
def Terminates (K : Kernel T) (m : Memory T) : Prop :=
  ∃ bound, ∀ (actions : List Action) (s : State T),
    actions.foldlM K.step (K.init m) = some s → actions.length ≤ bound

theorem terminates (hK : K.Undisturbed m) : K.Terminates m :=
  ⟨_, fun actions _ h => run_length_le hK actions (Inv.init hK) h⟩

end Kernel

end Aomp.Xteam
