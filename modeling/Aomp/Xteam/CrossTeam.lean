import Aomp.Xteam.Fold

/-!
# Plain reductions: one call, and any number of calls in one kernel

The statements about the runs of `_xteam_reduction` without `_IS_FAST`: what one call leaves
in memory, and that calls which follow one another in a kernel do not disturb each other.
-/
namespace Aomp.Xteam

open Foundations

variable {T : Type*} {m : Memory T} {s : State T}

namespace Kernel

/-- The calls of a plain instantiation have a `team_vals` array and a counter each, and the
counters start at 0. -/
structure OwnInstances (K : Kernel T) (m : Memory T) : Prop where
  slow : K.IS_FAST = false
  tvs : ∀ c < K.calls, ∀ c' < K.calls, K.tvs c = K.tvs c' → c = c'
  td : ∀ c < K.calls, ∀ c' < K.calls, K.td c = K.td c' → c = c'
  teams_done : ∀ c < K.calls, m.teams_done (K.td c) = 0

theorem OwnInstances.undisturbed {K : Kernel T} (h : K.OwnInstances m) : K.Undisturbed m :=
  ⟨fun _ => h.tvs, fun _ => h.td, fun _ => h.teams_done, fun hf => by simp [h.slow] at hf⟩

theorem ownInstances_of_one {K : Kernel T} (hslow : K.IS_FAST = false) (hone : K.calls = 1)
    (hzero : m.teams_done (K.td 0) = 0) : K.OwnInstances m := by
  refine ⟨hslow, fun c hc c' hc' _ => by omega, fun c hc c' hc' _ => by omega, fun c hc => ?_⟩
  obtain rfl : c = 0 := by omega
  exact hzero

end Kernel

open Kernel

/-- Every run of one plain call on all threads ends, and it ends with the fold of the old
result and all thread values, stored by one team, and with the counter back at 0. -/
theorem cross_team_reduction (K : Kernel T) (hops : K.ops.Lawful) (hslow : K.IS_FAST = false)
    (hone : K.calls = 1) (m : Memory T) (hzero : m.teams_done (K.td 0) = 0) :
    K.Terminates m ∧
      ∀ s, K.Reaches m s → Stuck K.step s → K.Finished s ∧
        s.r_ptr 0 = foldRange K.ops.rf (m.r_ptr 0) (K.val 0) (K.NumTeams * K.block_size) ∧
        (∃ t, s.writers 0 = [t]) ∧ s.teams_done (K.td 0) = 0 := by
  have hK := (ownInstances_of_one hslow hone hzero).undisturbed
  refine ⟨terminates hK, fun s hs hstuck => ?_⟩
  have hinv := Reaches.inv hK hs
  have hfin := hinv.finished_of_stuck hstuck
  obtain ⟨hr, hw, htd⟩ := hinv.finished_plain hfin hslow (c := 0) (by omega)
  rw [K.resultValue_eq_fold hops] at hr
  exact ⟨hfin, hr, hw, htd⟩

def natSum : Ops ℕ := ⟨(· + ·), (· + ·), (· + ·), 0, exactShflXor⟩

theorem natSum_lawful : natSum.Lawful :=
  ⟨rfl, Nat.add_assoc, Nat.add_comm, Nat.add_zero, fun p v _ hs _ hm => exactShflXor_eq p v hs hm⟩

/-- Three teams of two threads with the values 1 to 6. -/
def threeTeams : Kernel ℕ where
  ops := natSum
  MaxNumWaves := 32
  WSZ := 32
  IS_FAST := false
  block_size := 2
  NumTeams := 3
  calls := 1
  val _ k := k + 1
  tvs := id
  td := id
  warp := warp_32
  block_pow := block_pow_2
  block_le := by decide
  teams_pos := by decide

theorem cross_team_reduction_threeTeams : ∃ s : State ℕ,
    threeTeams.Reaches ⟨fun _ _ => 9, fun _ => 9, fun _ _ => 9, fun _ => 0, fun _ => 7⟩ s ∧
      threeTeams.Finished s ∧ s.r_ptr 0 = 28 ∧ s.teams_done 0 = 0 := by
  obtain ⟨s, hs, hstuck⟩ := exists_finished (ownInstances_of_one (K := threeTeams)
    (m := ⟨fun _ _ => 9, fun _ => 9, fun _ _ => 9, fun _ => 0, fun _ => 7⟩) rfl rfl rfl).undisturbed
  obtain ⟨hfin, hr, -, htd⟩ :=
    (cross_team_reduction threeTeams natSum_lawful rfl rfl _ rfl).2 s hs hstuck
  exact ⟨s, hs, hfin, hr, htd⟩

/-- In every run of any number of plain calls, every read of shared memory returns a value
that the same call wrote, all waves of a team take the same side of the last-team test, and
the run ends with every result the fold of its own call. -/
theorem consecutive_reductions (K : Kernel T) (hops : K.ops.Lawful) (m : Memory T)
    (hown : K.OwnInstances m) :
    K.Terminates m ∧
      ∀ s, K.Reaches m s →
        (∀ p ∈ s.reads, p.2 = some p.1) ∧
        (∀ p ∈ s.tests, ∀ q ∈ s.tests, p.team = q.team → p.call = q.call → p.last = q.last) ∧
        (Stuck K.step s → K.Finished s ∧ ∀ c < K.calls, s.r_ptr c =
          foldRange K.ops.rf (m.r_ptr c) (K.val c) (K.NumTeams * K.block_size)) := by
  have hK := hown.undisturbed
  refine ⟨terminates hK, fun s hs => ?_⟩
  have hinv := Reaches.inv hK hs
  refine ⟨hinv.reads, fun p hp q hq hteam hcall => ?_, fun hstuck => ?_⟩
  · have hlast := (hinv.tests p hp).2
    rw [hteam, hcall] at hlast
    exact Bool.eq_iff_iff.mpr (hlast.trans (hinv.tests q hq).2.symm)
  · have hfin := hinv.finished_of_stuck hstuck
    refine ⟨hfin, fun c hc => ?_⟩
    rw [(hinv.finished_plain hfin hown.slow hc).1, K.resultValue_eq_fold hops]

/-- Two calls of two teams of two waves each. -/
def twoCalls : Kernel ℕ where
  ops := natSum
  MaxNumWaves := 2
  WSZ := 32
  IS_FAST := false
  block_size := 64
  NumTeams := 2
  calls := 2
  val c k := c + k
  tvs := id
  td := id
  warp := warp_32
  block_pow := block_pow_64
  block_le := block_le_64
  teams_pos := Nat.two_pos

theorem twoCalls_ownInstances (m : Memory ℕ) (h : ∀ c, m.teams_done c = 0) :
    twoCalls.OwnInstances m :=
  ⟨rfl, fun _ _ _ _ h => h, fun _ _ _ _ h => h, fun c _ => h c⟩

theorem consecutive_reductions_twoCalls : ∃ s : State ℕ,
    twoCalls.Reaches ⟨fun _ _ => 9, fun _ => 1, fun _ _ => 9, fun _ => 0, fun _ => 7⟩ s ∧
      s.r_ptr 0 = 8135 ∧ s.r_ptr 1 = 8263 ∧ ∀ p ∈ s.reads, p.2 = some p.1 := by
  have hown := twoCalls_ownInstances
    ⟨fun _ _ => 9, fun _ => 1, fun _ _ => 9, fun _ => 0, fun _ => 7⟩ fun _ => rfl
  obtain ⟨s, hs, hstuck⟩ := exists_finished hown.undisturbed
  obtain ⟨hreads, -, hend⟩ := (consecutive_reductions twoCalls natSum_lawful _ hown).2 s hs
  have hr := (hend hstuck).2
  have hfold : foldRange natSum.rf 7 (twoCalls.val 0) 128 = 8135 ∧
      foldRange natSum.rf 7 (twoCalls.val 1) 128 = 8263 := by decide +kernel
  exact ⟨s, hs, (hr 0 (by decide)).trans hfold.1, (hr 1 (by decide)).trans hfold.2, hreads⟩

end Aomp.Xteam
