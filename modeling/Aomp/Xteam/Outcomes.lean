import Aomp.Xteam.CrossTeam

/-!
# What the operations decide and what the schedule does

Sums of floating point numbers are neither associative nor commutative. Whatever the
operations are, the plain reduction computes one fixed expression of the thread values: its
result is the same in every run, bit by bit. A fast sum adds the team values in the order in
which the teams come; its outcomes are the sums in all orders, and no others.
-/
namespace Aomp.Xteam

open Foundations

namespace Kernel

/-- The team that an action moves. -/
def Action.team : Action → ℕ
  | .run t _ => t
  | .release t => t

variable {T : Type*} {K : Kernel T} {m : Memory T} {s s₀ s' : State T} {t c : ℕ}

/-- What a team does to the others: nothing, and it arrives at most once more in a call. -/
structure Frame (t : ℕ) (s s' : State T) : Prop where
  teams : ∀ t', t' ≠ t → s'.teams t' = s.teams t'
  arrived : ∀ c, s'.arrived c = s.arrived c ∨ s'.arrived c = s.arrived c ++ [t]

theorem frame_setTeam {b : Team T} (hteams : s'.teams = Function.update s.teams t b)
    (harrived : s'.arrived = s.arrived) :
    Frame t s s' := by
  refine ⟨fun t' ht' => ?_, fun c => .inl (by rw [harrived])⟩
  rw [hteams]
  exact Function.update_of_ne ht' _ _

theorem frame_arrive {b : Team T} (hteams : s'.teams = Function.update s.teams t b)
    (harrived : s'.arrived = Function.update s.arrived c (s.arrived c ++ [t])) : Frame t s s' := by
  refine ⟨fun t' ht' => ?_, fun c' => ?_⟩
  · rw [hteams]
    exact Function.update_of_ne ht' _ _
  · rw [harrived]
    by_cases hc : c' = c
    · subst hc
      exact .inr (Function.update_self ..)
    · exact .inl (Function.update_of_ne hc _ _)

theorem runWave_frame {w : ℕ} (h : K.runWave t w s = some s') : Frame t s s' := by
  cases hpc : ((s.teams t).waves w).pc with
  | sync | tdSync | teamsSync | endSync | done => simp [runWave, hpc] at h
  | add | inc =>
    simp only [runWave, hpc, Option.some.injEq] at h
    subst h
    exact frame_arrive rfl rfl
  | load r =>
    cases r <;> simp only [runWave, hpc, Option.some.injEq] at h <;> subst h <;>
      exact frame_setTeam rfl rfl
  | _ =>
    simp only [runWave, hpc, Option.some.injEq] at h
    subst h
    exact frame_setTeam rfl rfl

theorem step_frame {a : Action} (h : K.step s a = some s') : Frame a.team s s' := by
  cases a with
  | run t w =>
    simp only [Kernel.step] at h
    split_ifs at h
    exact runWave_frame h
  | release t =>
    simp only [Kernel.step] at h
    split_ifs at h
    exact Option.some.inj h ▸ frame_setTeam rfl rfl

theorem Frame.refl (t : ℕ) (s : State T) : Frame t s s := ⟨fun _ _ => rfl, fun _ => .inl rfl⟩

theorem Frame.trans (h : Frame t s₀ s) (h' : Frame t s s') (hnodup : ∀ c, (s'.arrived c).Nodup) :
    Frame t s₀ s' := by
  refine ⟨fun t' ht' => (h'.teams t' ht').trans (h.teams t' ht'), fun c => ?_⟩
  rcases h.arrived c with hold | hold
  · rw [← hold]
    exact h'.arrived c
  · rcases h'.arrived c with hnew | hnew
    · exact .inr (hnew.trans hold)
    · -- a second arrival would be in the list twice
      have := hnodup c
      rw [hnew, hold, List.append_assoc] at this
      exact absurd this (by simp [List.nodup_append])

def stepOf (K : Kernel T) (t : ℕ) (s : State T) (a : Action) : Option (State T) :=
  if a.team = t then K.step s a else none

theorem stepOf_team (s : State T) (a : Action) : K.stepOf a.team s a = K.step s a := if_pos rfl

theorem stepOf_eq_some {a : Action} (h : K.stepOf t s a = some s') :
    a.team = t ∧ K.step s a = some s' := by
  unfold stepOf at h
  split_ifs at h with ha
  exact ⟨ha, h⟩

def TeamDone (K : Kernel T) (s : State T) (t : ℕ) : Prop :=
  ∀ w < K.number_of_waves, ((s.teams t).waves w).pc = .done

/-- A team never waits for another one, so it can run to its end alone. -/
theorem Inv.exists_team_run (hK : K.Undisturbed m) (h : K.Inv m s) (ht : t < K.NumTeams) :
    ∃ s', Reachable K.step (fun _ _ => True) s s' ∧ K.Inv m s' ∧ Frame t s s' ∧ K.TeamDone s' t := by
  obtain ⟨s', hs', hstuck⟩ : ∃ s', Reachable (K.stepOf t) (fun _ _ => True) s s' ∧
      Stuck (K.stepOf t) s' :=
    Reachable.exists_stuck K.measure (P := K.Inv m) (fun _ _ => trivial)
      (fun s₁ a s₂ hinv hstep => ⟨hinv.step hK (stepOf_eq_some hstep).2,
        step_measure hinv (stepOf_eq_some hstep).2⟩) h
  have hkeep : Reachable K.step (fun _ _ => True) s s' ∧ K.Inv m s' ∧ Frame t s s' := by
    apply hs'.invariant (P := fun s' => Reachable K.step (fun _ _ => True) s s' ∧ K.Inv m s' ∧
      Frame t s s') ⟨.refl, h, Frame.refl t s⟩
    rintro s₁ a s₂ ⟨hr, hinv, hframe⟩ - hmove
    obtain ⟨ha, hstep⟩ := stepOf_eq_some hmove
    have hinv' := hinv.step hK hstep
    exact ⟨hr.tail trivial hstep, hinv', hframe.trans (ha ▸ step_frame hstep) hinv'.nodup⟩
  refine ⟨s', hkeep.1, hkeep.2.1, hkeep.2.2, ?_⟩
  exact hkeep.2.1.team_done_of_stuck ht (fun w => (stepOf_team s' (.run t w)).symm.trans (hstuck _))
    ((stepOf_team s' (.release t)).symm.trans (hstuck _))

theorem Inv.mem_arrived_of_done (h : K.Inv m s) (ht : t < K.NumTeams) (hdone : K.TeamDone s t)
    (hc : c < K.calls) : t ∈ s.arrived c := by
  rw [h.mem_arrived]
  refine ⟨ht, .inl ?_⟩
  obtain ⟨ph, hteam⟩ := h.team t ht
  have hwave := hteam.wave 0 K.number_of_waves_pos
  simp only [WaveInv, hdone 0 K.number_of_waves_pos] at hwave
  rw [State.leader, hwave.2.1]
  exact hc

/-- The teams of a list run one after another. -/
theorem exists_run_in_order (hK : K.Undisturbed m) (teams : List ℕ) (hnodup : teams.Nodup)
    (hlt : ∀ t ∈ teams, t < K.NumTeams) : ∃ s, K.Reaches m s ∧ (∀ t ∈ teams, K.TeamDone s t) ∧
      ∀ c < K.calls, s.arrived c = teams := by
  induction teams using List.reverseRecOn with
  | nil => exact ⟨K.init m, .refl, by simp, fun _ _ => rfl⟩
  | append_singleton teams t ih =>
    obtain ⟨hteams, -, hapart⟩ := List.nodup_append.mp hnodup
    have hnew : t ∉ teams := fun hmem => hapart t hmem t (by simp) rfl
    obtain ⟨s, hs, hdone, harrived⟩ := ih hteams fun t' ht' => hlt t' (by simp [ht'])
    have ht := hlt t (by simp)
    obtain ⟨s', hs', hinv, hframe, hdone'⟩ := (hs.inv hK).exists_team_run hK ht
    refine ⟨s', Reachable.trans hs hs', fun t' ht' => ?_, fun c hc => ?_⟩
    · rcases List.mem_append.mp ht' with hmem | hmem
      · intro w hw
        rw [hframe.teams t' fun he => hnew (he ▸ hmem)]
        exact hdone t' hmem w hw
      · rw [List.mem_singleton.mp hmem]
        exact hdone'
    · rcases hframe.arrived c with hsame | hsame
      · have hmem := hinv.mem_arrived_of_done ht hdone' hc
        rw [hsame, harrived c hc] at hmem
        exact absurd hmem hnew
      · rw [hsame, harrived c hc]

/-- What finished runs leave in the result of a call. -/
def Outcomes (K : Kernel T) (m : Memory T) (c : ℕ) : Set T :=
  {r | ∃ s, K.Reaches m s ∧ K.Finished s ∧ s.r_ptr c = r}

/-- The team values added to the old result in the order of a list of teams. -/
def addedInOrder (K : Kernel T) (m : Memory T) (c : ℕ) (teams : List ℕ) : T :=
  teams.foldl (fun a t => K.ops.add a (K.teamValue c t)) (m.r_ptr c)

/-- For operations of any kind, over all schedules: the plain reduction has one outcome, and
the outcomes of the fast one are the sums of the team values in every order of the teams. -/
theorem outcomes (K : Kernel T) (m : Memory T) (hK : K.Undisturbed m) (c : ℕ) (hc : c < K.calls) :
    (K.IS_FAST = false → K.Outcomes m c = {K.resultValue c (m.r_ptr c)}) ∧
    (K.IS_FAST = true → K.Outcomes m c =
      {r | ∃ teams, teams.Perm (List.range K.NumTeams) ∧ K.addedInOrder m c teams = r}) := by
  have hlast : ∀ teams : List ℕ, teams.Perm (List.range K.NumTeams) →
      ∃ s, K.Reaches m s ∧ K.Finished s ∧ s.arrived c = teams := by
    intro teams hperm
    obtain ⟨s, hs, hdone, harrived⟩ := exists_run_in_order hK teams
      (hperm.nodup_iff.mpr List.nodup_range) fun t ht => List.mem_range.mp (hperm.subset ht)
    refine ⟨s, hs, fun t ht => hdone t ?_, harrived c hc⟩
    exact hperm.mem_iff.mpr (List.mem_range.mpr ht)
  constructor
  · intro hslow
    ext r
    constructor
    · rintro ⟨s, hs, hfin, rfl⟩
      exact ((hs.inv hK).finished_plain hfin hslow hc).1
    · rintro rfl
      obtain ⟨s, hs, hfin, -⟩ := hlast _ (List.Perm.refl _)
      exact ⟨s, hs, hfin, ((hs.inv hK).finished_plain hfin hslow hc).1⟩
  · intro hfast
    ext r
    constructor
    · rintro ⟨s, hs, hfin, rfl⟩
      exact ⟨s.arrived c, (hs.inv hK).arrived_perm hfin hc, ((hs.inv hK).added hfast c hc).symm⟩
    · rintro ⟨teams, hperm, rfl⟩
      obtain ⟨s, hs, hfin, harrived⟩ := hlast teams hperm
      refine ⟨s, hs, hfin, ?_⟩
      rw [(hs.inv hK).added hfast c hc, harrived]
      rfl

/-- Two teams of two threads that write down the order in which their values are combined. -/
def written : Kernel (List ℕ) where
  ops := ⟨(· ++ ·), (· ++ ·), (· ++ ·), [], exactShflXor⟩
  MaxNumWaves := 2
  WSZ := 32
  IS_FAST := true
  block_size := 2
  NumTeams := 2
  calls := 1
  val _ k := [k]
  tvs _ := 0
  td _ := 0
  warp := warp_32
  block_pow := block_pow_2
  block_le := by decide
  teams_pos := Nat.two_pos

/-- Nothing is written yet. -/
def nothing : Memory (List ℕ) := ⟨fun _ _ => [], fun _ => 0, fun _ _ => [], fun _ => 0, fun _ => []⟩

theorem outcomes_written :
    [0, 1, 2, 3] ∈ written.Outcomes nothing 0 ∧ [2, 3, 0, 1] ∈ written.Outcomes nothing 0 := by
  have hK : written.Undisturbed nothing := ⟨nofun, nofun, nofun, fun _ => .inr le_rfl⟩
  rw [(outcomes written nothing hK 0 Nat.one_pos).2 rfl]
  constructor
  · exact ⟨[0, 1], List.Perm.refl _, by decide +kernel⟩
  · exact ⟨[1, 0], List.Perm.swap 0 1 [], by decide +kernel⟩

end Kernel

end Aomp.Xteam
