import Aomp.Xteam.WaveSteps

/-!
# The invariant under the steps of thread 0

Saving the team value, counting the team in, finding out whether it is the last one, and
writing the result. Then the barriers, and with them the invariant of all runs.
-/
namespace Aomp.Xteam

open Foundations

variable {T : Type*} {K : Kernel T} {m : Memory T} {s s' : State T} {r₀ : ℕ → T}
  {arrived arrived' : ℕ → List ℕ} {b : Team T} {v v' : Wave T} {ph : Phase} {td : Cell ℕ}
  {t w c off : ℕ} {r : Round}

def Wave.barrier (v : Wave T) : Phase :=
  match v.pc with
  | .sync r off => .tree r v.call (2 * off)
  | .tdSync => .tree .threads v.call 1
  | .teamsSync => .last v.call
  | _ => .tree .teams v.call 1

namespace Kernel

theorem prefix_arrive (arrived : ℕ → List ℕ) (c t c' : ℕ) :
    arrived c' <+: Function.update arrived c (arrived c ++ [t]) c' := by
  by_cases hc : c' = c
  · subst hc
    rw [Function.update_self]
    exact List.prefix_append _ _
  · rw [Function.update_of_ne hc]

/-- A later arrival does not change who is the last team among those that have arrived. -/
theorem lastTeam_extend_iff (hext : arrived c <+: arrived' c) (hnodup : (arrived' c).Nodup)
    (hmem : t ∈ arrived c) : K.LastTeam arrived' c t ↔ K.LastTeam arrived c t := by
  refine ⟨fun h => ?_, fun h => h.extend hext⟩
  obtain ⟨i, hi⟩ := List.mem_iff_getElem?.mp hmem
  obtain ⟨hlt, hti⟩ := List.getElem?_eq_some_iff.mp (getElem?_of_extends hext hi)
  obtain ⟨hlt', htj⟩ := List.getElem?_eq_some_iff.mp h
  have hij : i = K.NumTeams - 1 := hnodup.getElem_inj_iff.mp (hti.trans htj.symm)
  rw [LastTeam, ← hij]
  exact hi

theorem Inv.team_update (h : K.Inv m s) (hext : ∀ c, s.arrived c <+: arrived' c)
    (hteam : ∃ ph, K.TeamInv m.r_ptr arrived' t b ph) {t' : ℕ} (ht' : t' < K.NumTeams) :
    ∃ ph, K.TeamInv m.r_ptr arrived' t' (Function.update s.teams t b t') ph := by
  by_cases heq : t' = t
  · subst heq
    simpa using hteam
  · obtain ⟨ph, hph⟩ := h.team t' ht'
    rw [Function.update_of_ne heq]
    exact ⟨ph, hph.extend hext⟩

section Arrival

variable (h : K.Inv m s) (hnew : ¬ (s.leader t).Reached .saveTd c)
include h hnew

theorem Inv.nodup_arrive (c' : ℕ) :
    (Function.update s.arrived c (s.arrived c ++ [t]) c').Nodup := by
  by_cases hc : c' = c
  · subst hc
    rw [Function.update_self, ← List.concat_eq_append]
    exact (h.nodup c').concat fun hmem => hnew ((h.mem_arrived c' t).mp hmem).2
  · rw [Function.update_of_ne hc]
    exact h.nodup c'

theorem Inv.arrived_length_lt (ht : t < K.NumTeams) : (s.arrived c).length < K.NumTeams := by
  have hnodup := h.nodup_arrive hnew c
  rw [Function.update_self] at hnodup
  have hsub : (s.arrived c ++ [t]).toFinset ⊆ Finset.range K.NumTeams := by
    intro t' ht'
    rcases List.mem_append.mp (List.mem_toFinset.mp ht') with hmem | hmem
    · exact Finset.mem_range.mpr ((h.mem_arrived c t').mp hmem).1
    · rw [List.mem_singleton.mp hmem]
      exact Finset.mem_range.mpr ht
  have hcard := Finset.card_le_card hsub
  rw [List.toFinset_card_of_nodup hnodup, Finset.card_range, List.length_append] at hcard
  simpa using hcard

theorem Inv.mem_arrive (ht : t < K.NumTeams) (hb : ∀ c', (b.waves 0).Reached .saveTd c' ↔
      c' = c ∨ (s.leader t).Reached .saveTd c') (c' t' : ℕ) :
    t' ∈ Function.update s.arrived c (s.arrived c ++ [t]) c' ↔ t' < K.NumTeams ∧
      (if t' = t then b.waves 0 else s.leader t').Reached .saveTd c' := by
  by_cases htt : t' = t
  · subst htt
    rw [if_pos rfl, hb]
    by_cases hc : c' = c
    · subst hc
      simp [ht]
    · rw [Function.update_of_ne hc, h.mem_arrived]
      simp [hc]
  · rw [if_neg htt]
    by_cases hc : c' = c
    · subst hc
      rw [Function.update_self, List.mem_append, List.mem_singleton, or_iff_left htt]
      exact h.mem_arrived c' t'
    · rw [Function.update_of_ne hc]
      exact h.mem_arrived c' t'

theorem Inv.tests_arrive : ∀ p ∈ s.tests,
    p.team ∈ Function.update s.arrived c (s.arrived c ++ [t]) p.call ∧
      (p.last = true ↔
        K.LastTeam (Function.update s.arrived c (s.arrived c ++ [t])) p.call p.team) := by
  intro p hp
  obtain ⟨hmem, hlast⟩ := h.tests p hp
  have hext := prefix_arrive s.arrived c t p.call
  refine ⟨hext.subset hmem, hlast.trans ?_⟩
  exact (lastTeam_extend_iff hext (h.nodup_arrive hnew p.call) hmem).symm

theorem Inv.written_arrive (c' : ℕ) :
    (∃ t', K.LastTeam (Function.update s.arrived c (s.arrived c ++ [t])) c' t' ∧
      (s.leader t').Reached .endSync c') ↔ K.Written s c' := by
  have hext := prefix_arrive s.arrived c t c'
  constructor
  · rintro ⟨t', hlast, hend⟩
    have hsaveTd : (s.leader t').Reached .saveTd c' := hend.mono (by decide)
    have hmem : t' ∈ s.arrived c' := by
      have hmem := List.mem_of_getElem? hlast
      by_cases hc : c' = c
      · subst hc
        rw [Function.update_self, List.mem_append, List.mem_singleton] at hmem
        rcases hmem with hmem | rfl
        · exact hmem
        · exact absurd hsaveTd hnew
      · rwa [Function.update_of_ne hc] at hmem
    exact ⟨t', (lastTeam_extend_iff hext (h.nodup_arrive hnew c') hmem).mp hlast, hend⟩
  · rintro ⟨t', hlast, hend⟩
    exact ⟨t', hlast.extend hext, hend⟩

end Arrival

section Steps

variable (h : K.Inv m s) (ht : t < K.NumTeams) (hw : w < K.number_of_waves)
include h ht hw

theorem Inv.saveTeam (hK : K.Undisturbed m) (hpc : ((s.teams t).waves w).pc = .saveTeam)
    (hs : K.runWave t w s = some s') : K.Inv m s' := by
  simp only [runWave, hpc, Option.some.injEq] at hs
  subst hs
  obtain ⟨ph, hteam⟩ := h.team t ht
  have hwave := hteam.wave w hw
  simp only [WaveInv, hpc] at hwave
  obtain ⟨hcall, rfl, rfl, hslow, hacc⟩ := hwave
  have hc := hcall (by simp)
  have hstored : K.Inv m { s with
      team_vals := Function.update s.team_vals (K.tvs ((s.teams t).waves 0).call)
        (Function.update (s.team_vals (K.tvs ((s.teams t).waves 0).call)) t ((s.teams t).waves 0).acc) } := by
    refine ⟨h.team, h.nodup, h.mem_arrived, h.teams_done, fun _ c' hc' t' ht' hr => ?_,
      h.written, h.unwritten, h.added, h.reads, h.tests⟩
    have hold := h.team_vals hslow c' hc' t' ht' hr
    by_cases htvs : K.tvs c' = K.tvs ((s.teams t).waves 0).call
    · obtain rfl := hK.tvs hslow c' hc' _ hc htvs
      dsimp only
      rw [Function.update_self]
      by_cases htt : t' = t
      · subst htt
        rw [Function.update_self]
        exact hacc
      · rwa [Function.update_of_ne htt]
    · dsimp only
      rwa [Function.update_of_ne htvs]
  refine hstored.setTeam' ht ⟨_, hteam.setWave ⟨fun _ => hc, rfl, rfl, hslow⟩
    (hteam.lds.setWave (by rw [hpc]; rfl))⟩ (fun _ c' hc' hr => ?_) ?_ ?_ (by simp) (by simp)
  · rw [Team.setWave_waves, Function.update_self] at hr
    dsimp only
    rcases hr with hlt | ⟨heq, -⟩
    · have hne : K.tvs c' ≠ K.tvs ((s.teams t).waves 0).call := fun htvs =>
        hlt.ne (hK.tvs hslow c' hc' _ hc htvs)
      rw [Function.update_of_ne hne]
      exact h.team_vals hslow c' hc' t ht (.inl hlt)
    · obtain rfl : c' = ((s.teams t).waves 0).call := heq
      rw [Function.update_self, Function.update_self]
      exact hacc
  · intro c'
    simp [Wave.Reached, State.leader, hpc, Pc.rank]
  · intro c' _
    simp [Wave.Reached, State.leader, hpc, Pc.rank]

theorem Inv.inc (hK : K.Undisturbed m) (hpc : ((s.teams t).waves w).pc = .inc)
    (hs : K.runWave t w s = some s') : K.Inv m s' := by
  simp only [runWave, hpc, Option.some.injEq] at hs
  subst hs
  obtain ⟨ph, hteam⟩ := h.team t ht
  have hwave := hteam.wave w hw
  simp only [WaveInv, hpc] at hwave
  obtain ⟨hcall, rfl, rfl, hslow⟩ := hwave
  have hc := hcall (by simp)
  have hrank : (s.leader t).pc.rank = 4 := by
    show ((s.teams t).waves 0).pc.rank = 4
    rw [hpc]
    rfl
  have hnew : ¬ (s.leader t).Reached .saveTd ((s.teams t).waves 0).call := by
    rintro (hlt | ⟨-, hle⟩)
    · exact lt_irrefl _ hlt
    · rw [hrank] at hle
      exact absurd hle (by decide)
  have hlen := h.arrived_length_lt hnew ht
  have hold := h.teams_done hslow _ hc
  rw [if_neg hlen.ne] at hold
  have hext := prefix_arrive s.arrived ((s.teams t).waves 0).call t
  obtain ⟨v, hv⟩ : ∃ v : Wave T, v = { (s.teams t).waves 0 with
      pc := .saveTd, old := s.teams_done (K.td ((s.teams t).waves 0).call) } := ⟨_, rfl⟩
  have hvpc : v.pc = .saveTd := by rw [hv]
  have hvcall : v.call = ((s.teams t).waves 0).call := by rw [hv]
  have hvold : v.old = (s.arrived ((s.teams t).waves 0).call).length := by rw [hv, ← hold]
  rw [← hv]
  have hlead := s.leader_setTeam t ((s.teams t).setWave 0 v) [] []
  have hreached : ∀ (pc : Pc), pc.rank ≠ 5 → ∀ c' t',
      ((s.setTeam t ((s.teams t).setWave 0 v) [] []).leader t').Reached pc c' ↔
        (s.leader t').Reached pc c' := by
    intro pc hpc5 c' t'
    refine State.reached_setTeam (Wave.reached_congr pc hvcall ?_ c') t'
    rw [hvpc, hpc]
    have hranks : Pc.saveTd.rank = 5 ∧ Pc.inc.rank = 4 := ⟨rfl, rfl⟩
    omega
  have hwritten : ∀ c', (∃ t', K.LastTeam (Function.update s.arrived ((s.teams t).waves 0).call
      (s.arrived ((s.teams t).waves 0).call ++ [t])) c' t' ∧ ((s.setTeam t
        ((s.teams t).setWave 0 v) [] []).leader t').Reached .endSync c') ↔ K.Written s c' := fun c' =>
    (exists_congr fun t' => and_congr_right fun _ =>
      hreached .endSync (by decide) c' t').trans (h.written_arrive hnew c')
  refine ⟨fun t' ht' => h.team_update hext ⟨_, (hteam.extend hext).setWave ?_
      (hteam.lds.setWave (by rw [hpc, hvpc]; rfl))⟩ ht',
    h.nodup_arrive hnew, fun c' t' => ?_, fun _ c' hc' => ?_, fun _ c' hc' t' ht' hr => ?_,
    fun _ c' hc' hwr => h.written hslow c' hc' ((hwritten c').mp hwr),
    fun _ c' hc' hwr => h.unwritten hslow c' hc' (mt (hwritten c').mpr hwr),
    fun hf => absurd hf (by simp [hslow]), h.reads, h.tests_arrive hnew⟩
  · refine ⟨fun _ => hvcall ▸ hc, ?_⟩
    rw [hvpc, hvcall]
    refine ⟨rfl, rfl, hslow, ?_⟩
    rw [hvold, Function.update_self]
    simp
  · rw [h.mem_arrive hnew ht ?_ c' t']
    · show _ ↔ t' < K.NumTeams ∧ Wave.Reached .saveTd c'
        ((s.setTeam t ((s.teams t).setWave 0 v) [] []).leader t')
      rw [hlead]
    · intro c'
      rw [Team.setWave_waves, Function.update_self, Wave.Reached, Wave.Reached, hvcall, hvpc]
      show _ ↔ _ ∨ c' < ((s.teams t).waves 0).call ∨ c' = ((s.teams t).waves 0).call ∧ _ ≤ _
      rw [hrank]
      simp only [Pc.rank]
      omega
  · dsimp only
    by_cases hcc : c' = ((s.teams t).waves 0).call
    · subst hcc
      simp only [Function.update_self, hold, List.length_append, List.length_singleton]
      have := K.teams_pos
      split_ifs <;> omega
    · have htd : K.td c' ≠ K.td ((s.teams t).waves 0).call := fun heq =>
        hcc (hK.td hslow c' hc' _ hc heq)
      simp only [Function.update_of_ne htd, Function.update_of_ne hcc]
      exact h.teams_done hslow c' hc'
  · exact h.team_vals hslow c' hc' t' ht' ((hreached .inc (by decide) c' t').mp hr)

theorem Inv.saveTd (hpc : ((s.teams t).waves w).pc = .saveTd)
    (hs : K.runWave t w s = some s') : K.Inv m s' := by
  simp only [runWave, hpc, Option.some.injEq] at hs
  subst hs
  obtain ⟨ph, hteam⟩ := h.team t ht
  have hwave := hteam.wave w hw
  simp only [WaveInv, hpc] at hwave
  obtain ⟨hcall, rfl, rfl, hslow, hold⟩ := hwave
  have hc := hcall (by simp)
  refine h.setTeam ht ⟨_, hteam.phase, fun u hu => ?_, ?_⟩ ?_ (by simp) (by simp)
  · by_cases hu0 : u = 0
    · subst hu0
      rw [Team.setWave_waves, Function.update_self]
      exact ⟨fun _ => hc, rfl, hslow, fun _ => ⟨rfl, hold⟩⟩
    · -- the other waves do not rely on `td` before the barrier
      have hu' := hteam.wave u hu
      rw [Team.setWave_waves, Function.update_of_ne hu0]
      obtain ⟨hucall, hu'⟩ := hu'
      refine ⟨hucall, ?_⟩
      cases hupc : ((s.teams t).waves u).pc <;> simp only [hupc] at hu' ⊢
      case tdSync => exact ⟨hu'.1, hslow, fun hzero => absurd hzero hu0⟩
      case test =>
        rcases hu'.2.2 with ⟨-, hph⟩ | ⟨-, hph⟩
        · cases hph
        · have hone : 1 = K.number_of_waves := (Phase.tree.inj hph).2.2
          omega
      all_goals exact hu'
  · exact hteam.lds.setWave (by rw [hpc]; rfl)
  · show K.Keeps s.arrived t (s.leader t)
      (((s.teams t).setWave 0 { (s.teams t).waves 0 with pc := .tdSync }).waves 0)
    exact keeps_setWave fun _ => .of_rank rfl (by simp [hpc, Pc.rank])

theorem Inv.test (hpc : ((s.teams t).waves w).pc = .test) (hs : K.runWave t w s = some s') :
    K.Inv m s' := by
  simp only [runWave, hpc, Option.some.injEq] at hs
  subst hs
  obtain ⟨ph, hteam⟩ := h.team t ht
  have hwave := hteam.wave w hw
  simp only [WaveInv, hpc] at hwave
  obtain ⟨hcall, hslow, hplace, hph⟩ := hwave
  have hc := hcall (by simp)
  have hlast := h.lastTeam_iff hplace
  refine h.setTeam ht ?_ ?_ (by simp [hplace.1]) ?_
  · rcases hph with ⟨htd, rfl⟩ | ⟨htd, rfl⟩
    · rw [if_pos htd]
      exact ⟨_, hteam.setWave ⟨fun _ => hc, rfl⟩ trivial⟩
    · rw [if_neg htd]
      refine ⟨_, hteam.setWave (waveInv_enter (by omega)) ?_⟩
      intro hc' i
      have hstored := enter_stored (K := K) (v := (s.teams t).waves w) (t := t) (w := w) hc'
      exact (hteam.lds.setWave (v := K.enter t w _ _) (by rw [hstored, hpc]; rfl)) hc' i
  · apply keeps_setWave
    intro hw0
    subst hw0
    rcases hph with ⟨htd, rfl⟩ | ⟨htd, rfl⟩
    · rw [if_pos htd]
      exact .of_rank rfl (by simp [hpc, Pc.rank])
    · rw [if_neg htd]
      refine ⟨fun c => ?_, fun c => ?_, fun c hl => ?_⟩
      · rw [enter_reached (by decide)]
        simp only [Wave.Reached, hpc, Pc.rank]
        omega
      · rw [enter_reached (by decide)]
        simp only [Wave.Reached, hpc, Pc.rank]
        omega
      · have hne : c ≠ ((s.teams t).waves 0).call := by
          rintro rfl
          exact htd (hlast.mp hl)
        rw [enter_reached (by decide)]
        simp only [Wave.Reached, hpc, Pc.rank]
        omega
  · intro p hp
    rw [List.mem_singleton.mp hp]
    exact ⟨List.mem_of_getElem? hplace.2, by simp [hlast]⟩

theorem Inv.loadTeams (hpc : ((s.teams t).waves w).pc = .loadTeams)
    (hs : K.runWave t w s = some s') : K.Inv m s' := by
  simp only [runWave, hpc, Option.some.injEq] at hs
  subst hs
  obtain ⟨ph, hteam⟩ := h.team t ht
  have hwave := hteam.wave w hw
  simp only [WaveInv, hpc] at hwave
  obtain ⟨hcall, rfl⟩ := hwave
  obtain ⟨hc, hslow, hlast⟩ := hteam.phase
  refine h.setTeam ht ⟨_, hteam.setWave ⟨fun _ => hc, rfl, ?_⟩ trivial⟩ ?_ (by simp) (by simp)
  · funext lane
    dsimp only [laneVals]
    split_ifs with hlt
    · exact h.team_vals_eq hslow hc hlast hlt
    · rfl
  · apply keeps_setWave
    intro hw0
    subst hw0
    exact .of_rank rfl (by simp [hpc, Pc.rank])

omit h ht hw in
theorem not_written_leader (hpc : ((s.teams t).waves 0).pc.rank < 16)
    (hlast : K.LastTeam s.arrived ((s.teams t).waves 0).call t) :
    ¬ K.Written s ((s.teams t).waves 0).call := by
  apply not_written hlast
  rintro (hlt | ⟨-, hle⟩)
  · exact lt_irrefl _ hlt
  · exact absurd hle (by show ¬ 16 ≤ ((s.teams t).waves 0).pc.rank; omega)

theorem Inv.readResult (hpc : ((s.teams t).waves w).pc = .readResult)
    (hs : K.runWave t w s = some s') : K.Inv m s' := by
  simp only [runWave, hpc, Option.some.injEq] at hs
  subst hs
  obtain ⟨ph, hteam⟩ := h.team t ht
  have hwave := hteam.wave w hw
  simp only [WaveInv, hpc] at hwave
  obtain ⟨hcall, rfl, rfl, hacc⟩ := hwave
  have hc := hcall (by simp)
  obtain ⟨hslow, hlast⟩ := hteam.phase.2.2 rfl
  have hr := (h.unwritten hslow _ hc (not_written_leader (by simp [hpc, Pc.rank]) hlast)).1
  refine h.setTeam ht ⟨_, hteam.setWave ⟨fun _ => hc, rfl, rfl, le_rfl, ?_, .inr rfl⟩
    (hteam.lds.setWave (by rw [hpc]; rfl))⟩ ?_ (by simp) (by simp)
  · dsimp only
    rw [hacc, hr, K.tailValue_of_le le_rfl]
  · exact keeps_setWave fun _ => .of_rank rfl (by simp [hpc, Pc.rank])

theorem Inv.tail (hpc : ((s.teams t).waves w).pc = .tail off)
    (hs : K.runWave t w s = some s') : K.Inv m s' := by
  simp only [runWave, hpc, Option.some.injEq] at hs
  subst hs
  obtain ⟨ph, hteam⟩ := h.team t ht
  have hwave := hteam.wave w hw
  simp only [WaveInv, hpc] at hwave
  obtain ⟨hcall, rfl, rfl, hge, hacc, hoff⟩ := hwave
  have hc := hcall (by simp)
  obtain ⟨hslow, hlast⟩ := hteam.phase.2.2 rfl
  refine h.setTeam ht ⟨_, hteam.setWave ?_ (hteam.lds.setWave ?_)⟩ ?_ (by simp) (by simp)
  · split_ifs with hlt
    · refine ⟨fun _ => hc, rfl, rfl, by omega, ?_, .inl hlt⟩
      dsimp only
      rw [hacc, h.team_vals_eq hslow hc hlast hlt, K.tailValue_succ hge]
    · refine ⟨fun _ => hc, rfl, rfl, ?_⟩
      dsimp only
      rw [hacc, resultValue]
      rcases hoff with hle | rfl
      · rw [show off = K.NumTeams from by omega]
      · rw [K.tailValue_of_le le_rfl, K.tailValue_of_le (by omega)]
  · rw [hpc]
    split_ifs <;> rfl
  · apply keeps_setWave
    intro _
    split_ifs <;> exact .of_rank rfl (by simp [hpc, Pc.rank])

theorem Inv.writeResult (hpc : ((s.teams t).waves w).pc = .writeResult)
    (hs : K.runWave t w s = some s') : K.Inv m s' := by
  simp only [runWave, hpc, Option.some.injEq] at hs
  subst hs
  obtain ⟨ph, hteam⟩ := h.team t ht
  have hwave := hteam.wave w hw
  simp only [WaveInv, hpc] at hwave
  obtain ⟨hcall, rfl, rfl, hacc⟩ := hwave
  have hc := hcall (by simp)
  obtain ⟨hslow, hlast⟩ := hteam.phase.2.2 rfl
  obtain ⟨v, hv⟩ : ∃ v : Wave T, v = { (s.teams t).waves 0 with pc := .endSync } := ⟨_, rfl⟩
  have hvpc : v.pc = .endSync := by rw [hv]
  have hvcall : v.call = ((s.teams t).waves 0).call := by rw [hv]
  rw [← hv]
  have hlead := s.leader_setTeam t ((s.teams t).setWave 0 v) [] []
  have hreached : ∀ (pc : Pc), pc.rank < 16 → ∀ c' t',
      ((s.setTeam t ((s.teams t).setWave 0 v) [] []).leader t').Reached pc c' ↔
        (s.leader t').Reached pc c' := by
    intro pc hpc16 c' t'
    refine State.reached_setTeam (Wave.reached_congr pc hvcall ?_ c') t'
    rw [hvpc, hpc]
    have hranks : Pc.endSync.rank = 16 ∧ Pc.writeResult.rank = 15 := ⟨rfl, rfl⟩
    omega
  have hwritten : ∀ c', (∃ t', K.LastTeam s.arrived c' t' ∧ ((s.setTeam t
      ((s.teams t).setWave 0 v) [] []).leader t').Reached .endSync c') ↔
        c' = ((s.teams t).waves 0).call ∨ K.Written s c' := by
    intro c'
    constructor
    · rintro ⟨t', hl, hr⟩
      rw [hlead] at hr
      split_ifs at hr with htt
      · subst htt
        rw [Team.setWave_waves, Function.update_self, Wave.Reached, hvcall] at hr
        rcases hr with hlt | ⟨heq, -⟩
        · exact .inr ⟨t', hl, .inl hlt⟩
        · exact .inl heq
      · exact .inr ⟨t', hl, hr⟩
    · rintro (rfl | ⟨t', hl, hr⟩)
      · refine ⟨t, hlast, ?_⟩
        rw [hlead, if_pos rfl, Team.setWave_waves, Function.update_self]
        exact .inr ⟨hvcall.symm, by rw [hvpc]⟩
      · refine ⟨t', hl, ?_⟩
        rw [hlead]
        split_ifs with htt
        · subst htt
          rw [Team.setWave_waves, Function.update_self, Wave.Reached, hvcall, hvpc]
          exact hr.imp_right fun hand => ⟨hand.1, le_rfl⟩
        · exact hr
  have hunwritten := h.unwritten hslow _ hc (not_written_leader (by simp [hpc, Pc.rank]) hlast)
  refine ⟨fun t' ht' => h.team_update (fun _ => List.prefix_rfl) ⟨_, hteam.setWave ?_
      (hteam.lds.setWave (by rw [hpc, hvpc]; rfl))⟩ ht', h.nodup, fun c' t' => ?_, h.teams_done,
    fun _ c' hc' t' ht' hr => h.team_vals hslow c' hc' t' ht' ?_, fun _ c' hc' hwr => ?_,
    fun _ c' hc' hwr => ?_, fun hf => absurd hf (by simp [hslow]), h.reads, h.tests⟩
  · refine ⟨fun _ => hvcall ▸ hc, ?_⟩
    rw [hvpc, hvcall]
  · exact (h.mem_arrived c' t').trans
      (and_congr_right fun _ => (hreached .saveTd (by decide) c' t').symm)
  · exact (hreached .inc (by decide) c' t').mp hr
  · dsimp only
    by_cases hcc : c' = ((s.teams t).waves 0).call
    · subst hcc
      rw [Function.update_self, Function.update_self, hunwritten.2]
      exact ⟨hacc, t, rfl⟩
    · rw [Function.update_of_ne hcc, Function.update_of_ne hcc]
      exact h.written hslow c' hc' (((hwritten c').mp hwr).resolve_left hcc)
  · dsimp only
    have hcc : c' ≠ ((s.teams t).waves 0).call := fun heq => hwr ((hwritten c').mpr (.inl heq))
    rw [Function.update_of_ne hcc, Function.update_of_ne hcc]
    exact h.unwritten hslow c' hc' fun hold => hwr ((hwritten c').mpr (.inr hold))

theorem Inv.add (hK : K.Undisturbed m) (hpc : ((s.teams t).waves w).pc = .add)
    (hs : K.runWave t w s = some s') : K.Inv m s' := by
  simp only [runWave, hpc, Option.some.injEq] at hs
  subst hs
  obtain ⟨ph, hteam⟩ := h.team t ht
  have hwave := hteam.wave w hw
  simp only [WaveInv, hpc] at hwave
  obtain ⟨hcall, rfl, rfl, hf, hacc⟩ := hwave
  have hc := hcall (by simp)
  have hslow : K.IS_FAST ≠ false := by simp [hf]
  have hnew : ¬ (s.leader t).Reached .saveTd ((s.teams t).waves 0).call := by
    rintro (hlt | ⟨-, hle⟩)
    · exact lt_irrefl _ hlt
    · rw [show (s.leader t).pc = .add from hpc] at hle
      exact absurd hle (by decide)
  have hext := prefix_arrive s.arrived ((s.teams t).waves 0).call t
  have hlead := s.leader_setTeam t ((s.teams t).setWave 0
    (K.enter t 0 (((s.teams t).waves 0).call + 1) ((s.teams t).waves 0))) [] []
  refine ⟨fun t' ht' => h.team_update hext ?_ ht', h.nodup_arrive hnew, fun c' t' => ?_,
    fun hs => absurd hs hslow, fun hs => absurd hs hslow, fun hs => absurd hs hslow,
    fun hs => absurd hs hslow, fun _ c' hc' => ?_, h.reads, h.tests_arrive hnew⟩
  · by_cases hone : K.number_of_waves = 1
    · -- a single wave goes on to the next call at once
      have hphase : K.PhaseInv (Function.update s.arrived ((s.teams t).waves 0).call
          (s.arrived ((s.teams t).waves 0).call ++ [t])) t
            (.tree .threads (((s.teams t).waves 0).call + 1) K.number_of_waves) :=
        phaseInv_start (by omega)
      refine ⟨_, hphase, fun u hu => ?_, fun hc' i => ⟨fun hi hst => ?_, fun hlt => ?_⟩⟩
      · obtain rfl : u = 0 := by omega
        rw [Team.setWave_waves, Function.update_self]
        exact waveInv_enter (by omega)
      · obtain rfl : i = 0 := by omega
        rw [owner, if_pos rfl, Team.setWave_waves, Function.update_self, enter_stored hc'] at hst
        exact absurd hst (by simp)
      · exact absurd hlt (lt_irrefl _)
    · have hcalls : K.calls = 1 := by
        rcases hK.fast hf with h1 | h1
        · exact absurd h1 hone
        · omega
      have hcall0 : ((s.teams t).waves 0).call = 0 := by omega
      have hpos := K.number_of_waves_pos
      have hdone : K.enter t 0 (((s.teams t).waves 0).call + 1) ((s.teams t).waves 0) =
          { (s.teams t).waves 0 with pc := .done, call := ((s.teams t).waves 0).call + 1 } :=
        if_neg (by omega)
      rw [hdone]
      refine ⟨_, (hteam.extend hext).setWave ⟨fun hne => absurd rfl hne, ?_, .inr ⟨hf, ?_, ?_⟩⟩
        (hteam.lds.setWave (by rw [hpc]; rfl))⟩
      · show ((s.teams t).waves 0).call + 1 = K.calls
        omega
      · omega
      · rw [hcall0]
  · rw [h.mem_arrive hnew ht ?_ c' t']
    · show _ ↔ t' < K.NumTeams ∧ Wave.Reached .saveTd c' ((s.setTeam t ((s.teams t).setWave 0
        (K.enter t 0 (((s.teams t).waves 0).call + 1) ((s.teams t).waves 0))) [] []).leader t')
      rw [hlead]
    · intro c'
      rw [Team.setWave_waves, Function.update_self, enter_reached (by decide), Wave.Reached,
        show (s.leader t).pc = .add from hpc]
      show _ ↔ _ ∨ c' < ((s.teams t).waves 0).call ∨ _ ∧ 5 ≤ 3
      omega
  · dsimp only
    by_cases hcc : c' = ((s.teams t).waves 0).call
    · subst hcc
      rw [Function.update_self, Function.update_self, List.foldl_append, ← h.added hf _ hc, hacc]
      rfl
    · rw [Function.update_of_ne hcc, Function.update_of_ne hcc]
      exact h.added hf c' hc'

end Steps

theorem WaveInv.phase_eq (h : K.WaveInv r₀ arrived t ph td w v) (hwait : v.pc.waiting = true) :
    ph = v.barrier := by
  obtain ⟨-, h⟩ := h
  unfold Wave.barrier
  cases hpc : v.pc <;> simp only [hpc, Pc.waiting, Bool.false_eq_true] at h hwait ⊢
  case endSync => exact h
  all_goals exact h.1

/-- All waves of a team that wait do so at the same barrier of the same call. -/
theorem WaveInv.same_barrier {w' : ℕ} (h : K.WaveInv r₀ arrived t ph td w v)
    (h' : K.WaveInv r₀ arrived t ph td w' v') (hwait : v.pc.waiting = true)
    (hwait' : v'.pc.waiting = true) : v'.pc = v.pc ∧ v'.call = v.call := by
  have hph := (h.phase_eq hwait).symm.trans (h'.phase_eq hwait')
  unfold Wave.barrier at hph
  cases hpc : v.pc <;> simp only [hpc, Pc.waiting, Bool.false_eq_true] at hph hwait <;>
    cases hpc' : v'.pc <;> simp only [hpc', Pc.waiting, Bool.false_eq_true] at hph hwait' <;>
    simp only [Phase.tree.injEq, Phase.last.injEq, reduceCtorEq, false_and] at hph
  case sync.sync r o r' o' => exact ⟨by rw [hph.1, show o' = o from by omega], hph.2.1.symm⟩
  case teamsSync.teamsSync => exact ⟨rfl, hph.symm⟩
  case tdSync.tdSync => exact ⟨rfl, hph.2.1.symm⟩
  case endSync.endSync => exact ⟨rfl, hph.2.1.symm⟩
  all_goals omega

theorem owner_lt {i : ℕ} (hi : i < off) (hoff : off ≤ K.number_of_waves) :
    K.owner off i < K.number_of_waves := by
  unfold owner
  split_ifs
  · omega
  · exact (Nat.div_le_self _ _).trans_lt (by omega)

theorem ldsInv_start {waves : ℕ → Wave T} {xwave_lds : ℕ → Cell T}
    (hfresh : c < K.calls → ∀ u < K.number_of_waves, (waves u).pc.stored = false) :
    K.LdsInv t ⟨waves, xwave_lds, td⟩ (.tree r c K.number_of_waves) := by
  intro hc i
  refine ⟨fun hi hst => ?_, fun hlt => absurd hlt (lt_irrefl _)⟩
  rw [show (waves (K.owner K.number_of_waves i)).pc.stored = false from
    hfresh hc _ (owner_lt hi le_rfl)] at hst
  exact absurd hst (by simp)

section

variable (h : K.Inv m s) (ht : t < K.NumTeams)

include h ht

/-- All waves wait at the barrier of a round. -/
theorem Inv.releaseSync {r : Round} {off : ℕ} (hall : ∀ u < K.number_of_waves,
    ((s.teams t).waves u).pc = .sync r off ∧
      ((s.teams t).waves u).call = ((s.teams t).waves 0).call) :
    K.Inv m (s.setTeam t
      { s.teams t with waves := fun w => K.pass t w ((s.teams t).waves w) } [] []) := by
  obtain ⟨ph, hteam⟩ := h.team t ht
  have hpos := K.number_of_waves_pos
  have hpc := (hall 0 hpos).1
  obtain ⟨hcall, h0⟩ := hteam.wave 0 hpos
  simp only [hpc] at h0 hcall
  obtain ⟨rfl, hoff⟩ := h0
  have hle := hteam.phase.off_le
  have hown : ∀ u < K.number_of_waves, K.pass t u ((s.teams t).waves u) =
      { (s.teams t).waves u with pc := .own r off } := fun u hu => by
    simp only [pass, (hall u hu).1]
  refine h.setTeam ht ⟨.tree r ((s.teams t).waves 0).call off, ⟨?_, ?_, hteam.phase.2.2⟩,
    fun u hu => ?_, fun hc i => ⟨fun hi hst => ?_, fun hlt hi _ => ?_⟩⟩ ?_ (by simp) (by simp)
  · obtain ⟨j, hj⟩ := hteam.phase.1
    exact ⟨j + 1, by rw [hj]; ring⟩
  · exact .inl (hcall (by simp))
  · dsimp only
    rw [hown u hu]
    refine ⟨fun _ => (hall u hu).2 ▸ hcall (by simp), ?_, by omega⟩
    dsimp only
    rw [(hall u hu).2]
  · dsimp only at hst
    rw [hown _ (owner_lt hi (by omega))] at hst
    exact absurd hst (by simp [Pc.stored])
  · apply (hteam.lds hc i).1 hi
    rw [(hall _ (owner_lt hi hle)).1]
    rfl
  · dsimp only
    rw [hown 0 hpos]
    exact .of_rank rfl (by cases r <;> simp [State.leader, hpc, Pc.rank])

/-- All waves wait for the place of their team: it is the last one, or the call is over. -/
theorem Inv.releaseTd (hall : ∀ u < K.number_of_waves, ((s.teams t).waves u).pc = .tdSync ∧
    ((s.teams t).waves u).call = ((s.teams t).waves 0).call) :
    K.Inv m (s.setTeam t
      { s.teams t with waves := fun w => K.pass t w ((s.teams t).waves w) } [] []) := by
  obtain ⟨ph, hteam⟩ := h.team t ht
  have hpos := K.number_of_waves_pos
  have hpc := (hall 0 hpos).1
  obtain ⟨hcall, h0⟩ := hteam.wave 0 hpos
  simp only [hpc] at h0 hcall
  obtain ⟨rfl, hslow, hplace⟩ := h0
  have hplace := hplace trivial
  have hc := hcall (by simp)
  have htest : ∀ u < K.number_of_waves, K.pass t u ((s.teams t).waves u) =
      { (s.teams t).waves u with pc := .test } := fun u hu => by
    simp only [pass, (hall u hu).1]
  have hkeeps : K.Keeps s.arrived t (s.leader t) (K.pass t 0 ((s.teams t).waves 0)) := by
    rw [htest 0 hpos]
    exact .of_rank rfl (by simp [State.leader, hpc, Pc.rank])
  by_cases htd : (s.teams t).td.value = K.NumTeams - 1
  · refine h.setTeam ht ⟨.last ((s.teams t).waves 0).call,
      ⟨hc, hslow, (h.lastTeam_iff hplace).mpr htd⟩, fun u hu => ?_, trivial⟩ hkeeps (by simp) (by simp)
    dsimp only
    rw [htest u hu]
    refine ⟨fun _ => (hall u hu).2 ▸ hc, hslow, ?_, .inl ⟨htd, ?_⟩⟩
    · simpa only [(hall u hu).2] using hplace
    · simp only [(hall u hu).2]
  · refine h.setTeam ht ⟨_, phaseInv_start (c := ((s.teams t).waves 0).call + 1) (by omega),
      fun u hu => ?_, ldsInv_start fun _ u hu => ?_⟩ hkeeps (by simp) (by simp)
    · dsimp only
      rw [htest u hu]
      refine ⟨fun _ => (hall u hu).2 ▸ hc, hslow, ?_, .inr ⟨htd, ?_⟩⟩
      · simpa only [(hall u hu).2] using hplace
      · simp only [(hall u hu).2]
    · rw [htest u hu]
      rfl

/-- All waves of the last team have loaded the team values. -/
theorem Inv.releaseTeams (hall : ∀ u < K.number_of_waves, ((s.teams t).waves u).pc = .teamsSync ∧
    ((s.teams t).waves u).call = ((s.teams t).waves 0).call) :
    K.Inv m (s.setTeam t
      { s.teams t with waves := fun w => K.pass t w ((s.teams t).waves w) } [] []) := by
  obtain ⟨ph, hteam⟩ := h.team t ht
  have hpos := K.number_of_waves_pos
  have hpc := (hall 0 hpos).1
  have h0 := (hteam.wave 0 hpos).2
  simp only [hpc] at h0
  obtain ⟨rfl, hval⟩ := h0
  obtain ⟨hc, hslow, hlast⟩ := hteam.phase
  have hwork : ∀ u < K.number_of_waves, K.pass t u ((s.teams t).waves u) =
      { (s.teams t).waves u with pc := .work .teams } := fun u hu => by
    simp only [pass, (hall u hu).1]
  refine h.setTeam ht ⟨.tree .teams ((s.teams t).waves 0).call K.number_of_waves,
    ⟨⟨0, by simp⟩, .inl hc, fun _ => ⟨hslow, hlast⟩⟩, fun u hu => ?_,
    ldsInv_start fun _ u hu => ?_⟩ ?_ (by simp) (by simp)
  · have hu' := (hteam.wave u hu).2
    simp only [(hall u hu).1] at hu'
    dsimp only
    rw [hwork u hu]
    refine ⟨fun _ => (hall u hu).2 ▸ hc, ?_, hu'.2⟩
    simp only [(hall u hu).2]
  · rw [hwork u hu]
    rfl
  · dsimp only
    rw [hwork 0 hpos]
    exact .of_rank rfl (by simp [State.leader, hpc, Pc.rank])

/-- All waves wait at the end of a call, and enter the next one. -/
theorem Inv.releaseEnd (hall : ∀ u < K.number_of_waves, ((s.teams t).waves u).pc = .endSync ∧
    ((s.teams t).waves u).call = ((s.teams t).waves 0).call) :
    K.Inv m (s.setTeam t
      { s.teams t with waves := fun w => K.pass t w ((s.teams t).waves w) } [] []) := by
  obtain ⟨ph, hteam⟩ := h.team t ht
  have hpos := K.number_of_waves_pos
  have hpc := (hall 0 hpos).1
  obtain ⟨hcall, h0⟩ := hteam.wave 0 hpos
  simp only [hpc] at h0 hcall
  subst h0
  have hc := hcall (by simp)
  have henter : ∀ u < K.number_of_waves, K.pass t u ((s.teams t).waves u) =
      K.enter t u (((s.teams t).waves 0).call + 1) ((s.teams t).waves u) := fun u hu => by
    simp only [pass, (hall u hu).1, (hall u hu).2]
  refine h.setTeam ht ⟨_, phaseInv_start (c := ((s.teams t).waves 0).call + 1) (by omega),
    fun u hu => ?_, ldsInv_start fun hc' u hu => ?_⟩ ?_ (by simp) (by simp)
  · dsimp only
    rw [henter u hu]
    exact waveInv_enter (by omega)
  · rw [henter u hu]
    exact enter_stored hc'
  · dsimp only
    rw [henter 0 hpos]
    refine ⟨fun c => ?_, fun c => ?_, fun c _ => ?_⟩ <;> rw [enter_reached (by decide)] <;>
      simp only [Wave.Reached, State.leader, hpc, Pc.rank] <;> omega

theorem Inv.release (hwait : ∀ w < K.number_of_waves, ((s.teams t).waves w).pc.waiting = true) :
    K.Inv m (s.setTeam t
      { s.teams t with waves := fun w => K.pass t w ((s.teams t).waves w) } [] []) := by
  obtain ⟨ph, hteam⟩ := h.team t ht
  have hpos := K.number_of_waves_pos
  have hall : ∀ u < K.number_of_waves, ((s.teams t).waves u).pc = ((s.teams t).waves 0).pc ∧
      ((s.teams t).waves u).call = ((s.teams t).waves 0).call := fun u hu =>
    (hteam.wave 0 hpos).same_barrier (hteam.wave u hu) (hwait 0 hpos) (hwait u hu)
  have hwait0 := hwait 0 hpos
  cases hpc : ((s.teams t).waves 0).pc <;>
    simp only [hpc, Pc.waiting, Bool.false_eq_true] at hwait0 hall
  case sync r off => exact h.releaseSync ht hall
  case tdSync => exact h.releaseTd ht hall
  case teamsSync => exact h.releaseTeams ht hall
  case endSync => exact h.releaseEnd ht hall

end

theorem Inv.runWave (hK : K.Undisturbed m) (h : K.Inv m s) (ht : t < K.NumTeams)
    (hw : w < K.number_of_waves) (hs : K.runWave t w s = some s') : K.Inv m s' := by
  cases hpc : ((s.teams t).waves w).pc with
  | work r => exact h.work ht hw hK hpc hs
  | own r off => exact h.own ht hw hpc hs
  | other r off => exact h.other ht hw hpc hs
  | put r off => exact h.put ht hw hK hpc hs
  | load r => exact h.load ht hw hpc hs
  | add => exact h.add ht hw hK hpc hs
  | saveTeam => exact h.saveTeam ht hw hK hpc hs
  | inc => exact h.inc ht hw hK hpc hs
  | saveTd => exact h.saveTd ht hw hpc hs
  | test => exact h.test ht hw hpc hs
  | loadTeams => exact h.loadTeams ht hw hpc hs
  | readResult => exact h.readResult ht hw hpc hs
  | tail off => exact h.tail ht hw hpc hs
  | writeResult => exact h.writeResult ht hw hpc hs
  | sync r off => simp [Kernel.runWave, hpc] at hs
  | tdSync => simp [Kernel.runWave, hpc] at hs
  | teamsSync => simp [Kernel.runWave, hpc] at hs
  | endSync => simp [Kernel.runWave, hpc] at hs
  | done => simp [Kernel.runWave, hpc] at hs

theorem Inv.step (hK : K.Undisturbed m) (h : K.Inv m s) {a : Action} (hs : K.step s a = some s') :
    K.Inv m s' := by
  cases a with
  | run t w =>
    simp only [Kernel.step] at hs
    split_ifs at hs with hlt
    exact h.runWave hK hlt.1 hlt.2 hs
  | release t =>
    simp only [Kernel.step] at hs
    split_ifs at hs with hlt
    obtain rfl := Option.some.inj hs
    exact h.release hlt.1 hlt.2

theorem Inv.init (hK : K.Undisturbed m) : K.Inv m (K.init m) := by
  have hpos := K.number_of_waves_pos
  have hnot : ∀ {pc : Pc}, 0 < pc.rank → ∀ c t, ¬ ((K.init m).leader t).Reached pc c := by
    intro pc hpc c t hr
    have h0 : c < 0 := (enter_reached hpc).mp hr
    omega
  have hunwritten : ∀ c, ¬ K.Written (K.init m) c := fun c ⟨t, _, hr⟩ => hnot (by decide) c t hr
  refine ⟨fun t ht => ⟨_, phaseInv_start (c := 0) (by omega), fun w _ => waveInv_enter (by omega),
    ldsInv_start fun hc u _ => enter_stored hc⟩, fun c => List.nodup_nil, fun c t => ?_,
    fun hslow c hc => ?_, fun _ c _ t _ hr => absurd hr (hnot (by decide) c t),
    fun _ c _ hw => absurd hw (hunwritten c), fun _ c _ _ => ⟨rfl, rfl⟩, fun _ c _ => rfl,
    by simp [Kernel.init], by simp [Kernel.init]⟩
  · exact iff_of_false List.not_mem_nil fun hand => hnot (by decide) c t hand.2
  · show m.teams_done (K.td c) = if 0 = K.NumTeams then 0 else 0
    rw [hK.teams_done hslow c hc, ite_self]

theorem Reaches.inv (hK : K.Undisturbed m) (h : K.Reaches m s) : K.Inv m s :=
  Reachable.invariant h (Inv.init hK) fun _ _ _ hinv _ hstep => hinv.step hK hstep

end Kernel

end Aomp.Xteam
