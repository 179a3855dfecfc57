import Mathlib.Order.Fin.Basic
import Aomp.Foundations.StridedLoops
import Aomp.Xteam.Exchange

/-!
# The simulated reductions of the runtime's test

`sim_dot`, `sim_max` and `sim_min` do by hand what the compiler is to generate: each thread
reduces the iterations of its jump loop and passes the result to the runtime. The counter and
the array of team values are made by the first call and used again by all later ones, with
whatever the launches before have left in them. For a type whose lane exchange is exact the results
are those of the serial loops as long as the jump of the loop, which is never below 64 threads, is
not more than the threads.
-/
namespace Aomp.Xteam

open Foundations

/-- The macros of one build of the test and the constants of its `loop_ctl_t`. The last field
keeps the `int64_t` of the jump loop from overflowing. -/
structure SimBuild where
  XTEAM_NUM_TEAMS : ℕ
  XTEAM_NUM_THREADS : ℕ
  warp_size : ℕ
  stride : ℕ
  offset : ℕ
  size : ℕ
  teams_pos : 1 ≤ XTEAM_NUM_TEAMS
  threads_pow : ∃ m, XTEAM_NUM_THREADS = 2 ^ m
  threads_le : XTEAM_NUM_THREADS ≤ 1024
  stride_pos : 0 < stride
  fits : offset + size + stride * (XTEAM_NUM_TEAMS * 1024) < 2 ^ 63

namespace SimBuild

variable (L : SimBuild)

def jumpThreads : ℕ :=
  if L.XTEAM_NUM_THREADS = 1024 then 1024
  else if L.XTEAM_NUM_THREADS = 512 then 512
  else if L.XTEAM_NUM_THREADS = 256 then 256
  else if L.XTEAM_NUM_THREADS = 128 then 128
  else 64

/-- `_BIG_JUMP_LOOP` of the thread `k`. -/
def BIG_JUMP_LOOP (k : ℕ) : List ℕ :=
  stridedLoop (k * L.stride + L.offset) L.size (L.XTEAM_NUM_TEAMS * L.jumpThreads * L.stride)

/-- `_BIG_JUMP_LOOP` with `__OPTIMIZE_INDEX0_STRIDE1`. -/
def BIG_JUMP_LOOP_INDEX0_STRIDE1 (k : ℕ) : List ℕ :=
  stridedLoop k L.size (L.XTEAM_NUM_TEAMS * L.jumpThreads)

theorem bigJumpLoop_optimized (hstride : L.stride = 1) (hoffset : L.offset = 0) (k : ℕ) :
    L.BIG_JUMP_LOOP_INDEX0_STRIDE1 k = L.BIG_JUMP_LOOP k := by
  rw [BIG_JUMP_LOOP, BIG_JUMP_LOOP_INDEX0_STRIDE1, hstride, hoffset, mul_one, add_zero, mul_one]

def loop : List ℕ := stridedLoop L.offset L.size L.stride

/-- Some thread has the iteration in its jump loop. -/
def Covers (i : ℕ) : Prop :=
  iteration L.offset L.stride i % (L.XTEAM_NUM_TEAMS * L.jumpThreads) <
    L.XTEAM_NUM_TEAMS * L.XTEAM_NUM_THREADS

instance (i : ℕ) : Decidable (L.Covers i) := inferInstanceAs (Decidable (_ < _))

/-- The step of the jump loop counts the threads there are, but at least 64. -/
theorem jumpThreads_eq : L.jumpThreads = max L.XTEAM_NUM_THREADS 64 := by
  obtain ⟨m, hm⟩ := L.threads_pow
  have hle := L.threads_le
  rw [hm] at hle
  have hm10 : m ≤ 10 := (Nat.pow_le_pow_iff_right (a := 2) (by omega)).mp hle
  unfold jumpThreads
  rw [hm]
  clear hle hm
  interval_cases m <;> rfl

theorem jumpThreads_pos : 0 < L.jumpThreads := by
  rw [jumpThreads_eq]
  omega

theorem threads_le_jumpThreads : L.XTEAM_NUM_THREADS ≤ L.jumpThreads := by
  rw [jumpThreads_eq]
  omega

theorem bigJumpLoops_perm :
    ((List.range (L.XTEAM_NUM_TEAMS * L.XTEAM_NUM_THREADS)).flatMap L.BIG_JUMP_LOOP).Perm
      (L.loop.filter fun i => L.Covers i) := by
  have hloop : L.BIG_JUMP_LOOP = fun k => stridedLoop (L.offset + L.stride * k) L.size
      (L.stride * (L.XTEAM_NUM_TEAMS * L.jumpThreads)) := by
    funext k
    rw [BIG_JUMP_LOOP, mul_comm k, add_comm, mul_comm L.stride (_ * _)]
  rw [hloop]
  exact stridedLoop_split L.stride_pos (Nat.mul_pos L.teams_pos L.jumpThreads_pos)
    (Nat.mul_le_mul_left L.XTEAM_NUM_TEAMS L.threads_le_jumpThreads)

theorem mem_loop {i : ℕ} : i ∈ L.loop ↔ i < L.size ∧ ∃ j, i = L.offset + L.stride * j :=
  mem_stridedLoop L.stride_pos

/-- With fewer than 64 threads the jump loops leave out the iterations that the first round of
all threads does not reach. -/
theorem covers_iff : (∀ i ∈ L.loop, L.Covers i) ↔ 64 ≤ L.XTEAM_NUM_THREADS ∨
    L.size ≤ L.offset + L.stride * (L.XTEAM_NUM_TEAMS * L.XTEAM_NUM_THREADS) := by
  have hstride := L.stride_pos
  have hteams := L.teams_pos
  constructor
  · intro hall
    by_contra hnot
    rw [not_or, not_le, not_le] at hnot
    obtain ⟨hfew, hsize⟩ := hnot
    -- the first iteration after that round
    have hcovers := hall _ (L.mem_loop.mpr ⟨hsize, _, rfl⟩)
    have hjump : L.jumpThreads = 64 := by rw [jumpThreads_eq]; omega
    have hlt : L.XTEAM_NUM_TEAMS * L.XTEAM_NUM_THREADS < L.XTEAM_NUM_TEAMS * 64 :=
      Nat.mul_lt_mul_of_pos_left hfew (by omega)
    rw [Covers, iteration_add_mul hstride, hjump, Nat.mod_eq_of_lt hlt] at hcovers
    exact lt_irrefl _ hcovers
  · rintro (hmany | hsmall) i hi
    · have hjump : L.jumpThreads = L.XTEAM_NUM_THREADS := by rw [jumpThreads_eq]; omega
      rw [Covers, hjump]
      exact Nat.mod_lt _ (Nat.mul_pos hteams (by omega))
    · obtain ⟨hlt, j, rfl⟩ := L.mem_loop.mp hi
      have hj : j < L.XTEAM_NUM_TEAMS * L.XTEAM_NUM_THREADS :=
        Nat.lt_of_mul_lt_mul_left (a := L.stride) (by omega)
      rw [Covers, iteration_add_mul hstride]
      exact (Nat.mod_le _ _).trans_lt hj

end SimBuild

section Frame

variable {T : Type*} {K : Kernel T} {m : Memory T} {s s' : State T} {t w n : ℕ}

theorem runWave_teams_done (hn : ∀ c, n ≠ K.td c) (h : K.runWave t w s = some s') :
    s'.teams_done n = s.teams_done n := by
  cases hpc : ((s.teams t).waves w).pc with
  | sync | tdSync | teamsSync | endSync | done => simp [Kernel.runWave, hpc] at h
  | inc =>
    simp only [Kernel.runWave, hpc, Option.some.injEq] at h
    subst h
    exact Function.update_of_ne (hn _) _ _
  | load r => cases r <;> simp only [Kernel.runWave, hpc, Option.some.injEq] at h <;> subst h <;> rfl
  | _ =>
    simp only [Kernel.runWave, hpc, Option.some.injEq] at h
    subst h
    rfl

/-- A kernel leaves the counters alone that it was not given. -/
theorem Kernel.Reaches.teams_done (hn : ∀ c, n ≠ K.td c) (h : K.Reaches m s) :
    s.teams_done n = m.teams_done n := by
  apply Reachable.invariant h (P := fun s => s.teams_done n = m.teams_done n) rfl
  rintro s a s' hs - hstep
  cases a with
  | run t w =>
    simp only [Kernel.step] at hstep
    split_ifs at hstep
    exact (runWave_teams_done hn hstep).trans hs
  | release t =>
    simp only [Kernel.step] at hstep
    split_ifs at hstep
    exact Option.some.inj hstep ▸ hs

end Frame

variable {T : Type*}

/-- `__kmpc_rfun_sum`, `__kmpc_rfun_max` and `__kmpc_rfun_min` of an integer type. -/
def kmpc_rfun_sum [Add T] (val otherval : T) : T := val + otherval
def kmpc_rfun_max [LinearOrder T] (val otherval : T) : T := if otherval > val then otherval else val
def kmpc_rfun_min [LinearOrder T] (val otherval : T) : T := if otherval < val then otherval else val

theorem kmpc_rfun_max_eq [LinearOrder T] (a b : T) : kmpc_rfun_max a b = max a b :=
  (max_def_lt a b).symm

theorem kmpc_rfun_min_eq [LinearOrder T] (a b : T) : kmpc_rfun_min a b = min a b := by
  rw [min_comm, min_def_lt]
  rfl

/-- The exchange of a type delivers the partner's value, as `xteamr_shfl_xor_int` does. The
exchange of `long` and `unsigned long` does not. -/
def ExactShfl (shflXor : ℕ → (ℕ → T) → ℕ → ℕ → T) : Prop :=
  ∀ p, ∀ v, ∀ self < 2 ^ p, ∀ mask < 2 ^ p, shflXor (2 ^ p) v self mask = v (self ^^^ mask)

/-- A call of `sim_dot`, `sim_max` or `sim_min`. -/
inductive SimCall (T : Type*)
  | sim_dot (a b : ℕ → T)
  | sim_max (c : ℕ → T)
  | sim_min (c : ℕ → T)

def SimCall.lc : SimCall T → ℕ
  | sim_dot _ _ => 0
  | sim_max _ => 1
  | sim_min _ => 2

/-- The device memory of the test and the variables `num_teams0`, `num_teams1` and
`num_teams2`, which are 0 until the first call. -/
structure SimDevice (T : Type*) where
  num_teams : ℕ → ℕ
  teams_done : ℕ → ℕ
  team_vals : ℕ → ℕ → T

namespace SimDevice

/-- The first call of a function allocates its memory, with whatever it holds, and sets the
counter to 0. -/
def allocate (L : SimBuild) (call : SimCall T) (d : SimDevice T) : SimDevice T :=
  if d.num_teams call.lc = 0 then
    { d with
      num_teams := Function.update d.num_teams call.lc L.XTEAM_NUM_TEAMS
      teams_done := Function.update d.teams_done call.lc 0 }
  else d

/-- Memory at the start of a launch, with any contents of shared memory. -/
def memory (d : SimDevice T) (rnv : T) (xwave_lds : ℕ → ℕ → T) (td : ℕ → ℕ) : Memory T :=
  ⟨xwave_lds, td, d.team_vals, d.teams_done, fun _ => rnv⟩

/-- What a launch leaves on the device. -/
def after (d : SimDevice T) (s : State T) : SimDevice T :=
  { d with teams_done := s.teams_done, team_vals := s.team_vals }

def Ready (d : SimDevice T) : Prop := ∀ n, d.num_teams n ≠ 0 → d.teams_done n = 0

theorem Ready.allocate {d : SimDevice T} (h : d.Ready) (L : SimBuild) (call : SimCall T) :
    (d.allocate L call).Ready ∧ (d.allocate L call).teams_done call.lc = 0 := by
  unfold SimDevice.allocate
  split_ifs with hfirst
  · refine ⟨fun n hn => ?_, Function.update_self ..⟩
    by_cases hlc : n = call.lc
    · rw [hlc]
      exact Function.update_self ..
    · simp only [Function.update_of_ne hlc] at hn ⊢
      exact h n hn
  · exact ⟨h, h _ hfirst⟩

end SimDevice

namespace SimCall

section Body

variable [AddCommMonoid T] [LinearOrder T]

def rfun : SimCall T → T → T → T
  | sim_dot _ _ => kmpc_rfun_sum
  | sim_max _ => kmpc_rfun_max
  | sim_min _ => kmpc_rfun_min

theorem rfun_assoc (call : SimCall T) (a b c : T) :
    call.rfun (call.rfun a b) c = call.rfun a (call.rfun b c) := by
  cases call with
  | sim_dot => exact add_assoc a b c
  | sim_max => simp only [rfun, kmpc_rfun_max_eq, max_assoc]
  | sim_min => simp only [rfun, kmpc_rfun_min_eq, min_assoc]

theorem rfun_comm (call : SimCall T) (a b : T) : call.rfun a b = call.rfun b a := by
  cases call with
  | sim_dot => exact add_comm a b
  | sim_max => simp only [rfun, kmpc_rfun_max_eq, max_comm]
  | sim_min => simp only [rfun, kmpc_rfun_min_eq, min_comm]

variable [Mul T]

/-- The statement inside the jump loop, which is also that of `omp_dot`, `omp_max` and
`omp_min`. -/
def body : SimCall T → T → ℕ → T
  | sim_dot a b, val, i => val + a i * b i
  | sim_max c, val, i => if c i > val then c i else val
  | sim_min c, val, i => if c i < val then c i else val

def element : SimCall T → ℕ → T
  | sim_dot a b, i => a i * b i
  | sim_max c, i | sim_min c, i => c i

theorem body_eq (call : SimCall T) (val : T) (i : ℕ) :
    call.body val i = call.rfun val (call.element i) := by
  cases call <;> rfl

end Body

section Ops

variable [AddCommMonoid T] [LinearOrder T] [BoundedOrder T]

/-- `rnv`, which is also where the result starts. -/
def rnv : SimCall T → T
  | sim_dot _ _ => 0
  | sim_max _ => ⊥
  | sim_min _ => ⊤

theorem rfun_rnv (call : SimCall T) (a : T) : call.rfun a call.rnv = a := by
  cases call with
  | sim_dot => exact add_zero a
  | sim_max => simp only [rfun, rnv, kmpc_rfun_max_eq, max_bot_right]
  | sim_min => simp only [rfun, rnv, kmpc_rfun_min_eq, min_top_right]

/-- The arguments of the reduction, with the `xteamr_shfl_xor` of the type. -/
def ops (shflXor : ℕ → (ℕ → T) → ℕ → ℕ → T) (call : SimCall T) : Ops T :=
  ⟨call.rfun, call.rfun, (· + ·), call.rnv, shflXor⟩

theorem ops_lawful {shflXor : ℕ → (ℕ → T) → ℕ → ℕ → T} (hshfl : ExactShfl shflXor)
    (call : SimCall T) : (call.ops shflXor).Lawful :=
  ⟨rfl, call.rfun_assoc, call.rfun_comm, call.rfun_rnv, hshfl⟩

end Ops

end SimCall

variable [AddCommMonoid T] [Mul T] [LinearOrder T] [BoundedOrder T]
  {shflXor : ℕ → (ℕ → T) → ℕ → ℕ → T}

namespace SimCall

variable (call : SimCall T)

/-- The launch of a call: `_16x64` for warps of 64 lanes and `_32x32` for all others. -/
def kernel (shflXor : ℕ → (ℕ → T) → ℕ → ℕ → T) (L : SimBuild) (call : SimCall T) : Kernel T where
  ops := call.ops shflXor
  MaxNumWaves := if L.warp_size = 64 then 16 else 32
  WSZ := if L.warp_size = 64 then 64 else 32
  IS_FAST := false
  block_size := L.XTEAM_NUM_THREADS
  NumTeams := L.XTEAM_NUM_TEAMS
  calls := 1
  val _ k := (L.BIG_JUMP_LOOP k).foldl call.body call.rnv
  tvs _ := call.lc
  td _ := call.lc
  warp := by split_ifs <;> simp
  block_pow := L.threads_pow
  block_le := by
    have := L.threads_le
    split_ifs <;> omega
  teams_pos := L.teams_pos

/-- The loops of the test that the compiler turns into a reduction, read serially. -/
def serial (L : SimBuild) : T := L.loop.foldl call.body call.rnv

/-- The serial loop without the iterations that no thread has. -/
def covered (L : SimBuild) : T := (L.loop.filter fun i => L.Covers i).foldl call.body call.rnv

theorem resultValue_eq (hshfl : ExactShfl shflXor) (L : SimBuild) :
    (call.kernel shflXor L).resultValue 0 call.rnv = call.covered L := by
  have hbody : call.body = fun v i => call.rfun v (call.element i) := by
    funext v i
    exact call.body_eq v i
  rw [(call.kernel shflXor L).resultValue_eq_fold (call.ops_lawful hshfl), covered, hbody]
  rw [← foldl_perm call.rfun_assoc call.rfun_comm L.bigJumpLoops_perm,
    ← foldRange_parts call.rfun_assoc call.rfun_rnv, ← hbody]
  rfl

end SimCall

/-- The calls of one run of the test with their results. Each launch takes any schedule to
its end. -/
inductive SimRun (shflXor : ℕ → (ℕ → T) → ℕ → ℕ → T) (L : SimBuild) (d₀ : SimDevice T) :
    List (SimCall T) → List T → SimDevice T → Prop
  | start : SimRun shflXor L d₀ [] [] d₀
  | call {calls results d call xwave_lds td s} : SimRun shflXor L d₀ calls results d →
      (call.kernel shflXor L).Reaches ((d.allocate L call).memory call.rnv xwave_lds td) s →
      (call.kernel shflXor L).Finished s →
      SimRun shflXor L d₀ (calls ++ [call]) (results ++ [s.r_ptr 0]) ((d.allocate L call).after s)

namespace SimRun

variable {L : SimBuild} {d₀ d : SimDevice T} {calls : List (SimCall T)} {results : List T}

theorem undisturbed (shflXor : ℕ → (ℕ → T) → ℕ → ℕ → T) (h : d.Ready) (call : SimCall T) (xwave_lds : ℕ → ℕ → T) (td : ℕ → ℕ) :
    (call.kernel shflXor L).Undisturbed ((d.allocate L call).memory call.rnv xwave_lds td) := by
  refine ⟨fun _ c hc c' hc' _ => ?_, fun _ c hc c' hc' _ => ?_, fun _ c hc => ?_, nofun⟩
  · exact (Nat.lt_one_iff.mp hc).trans (Nat.lt_one_iff.mp hc').symm
  · exact (Nat.lt_one_iff.mp hc).trans (Nat.lt_one_iff.mp hc').symm
  · exact (h.allocate L call).2

/-- A call leaves the counters at 0 for the next ones. -/
theorem ready (h : SimRun shflXor L d₀ calls results d) (h₀ : d₀.Ready) : d.Ready := by
  induction h with
  | start => exact h₀
  | @call calls results d call xwave_lds td s _ hs hfin ih =>
    have hinv := hs.inv (undisturbed shflXor ih call xwave_lds td)
    intro n hn
    by_cases hlc : n = call.lc
    · rw [hlc]
      exact (hinv.finished_plain hfin rfl (c := 0) one_pos).2.2
    · exact (hs.teams_done fun _ => hlc).trans ((ih.allocate L call).1 n hn)

theorem results_eq (hshfl : ExactShfl shflXor) (h : SimRun shflXor L d₀ calls results d) (h₀ : d₀.Ready) :
    results = calls.map fun call => call.covered L := by
  induction h with
  | start => rfl
  | @call calls results d call xwave_lds td s hrun hs hfin ih =>
    have hinv := hs.inv (undisturbed shflXor (hrun.ready h₀) call xwave_lds td)
    have hr := (hinv.finished_plain hfin rfl (c := 0) one_pos).1
    rw [List.map_append, ih]
    exact congrArg (_ ++ [·]) (hr.trans (call.resultValue_eq hshfl L))

theorem exists_run (shflXor : ℕ → (ℕ → T) → ℕ → ℕ → T) (L : SimBuild) (h₀ : d₀.Ready) (calls : List (SimCall T)) :
    ∃ results d, SimRun shflXor L d₀ calls results d := by
  induction calls using List.reverseRecOn with
  | nil => exact ⟨[], d₀, .start⟩
  | append_singleton calls call ih =>
    obtain ⟨results, d, hrun⟩ := ih
    have hK := undisturbed shflXor (L := L) (hrun.ready h₀) call (fun _ _ => 0) (fun _ => 0)
    obtain ⟨s, hs, hstuck⟩ := Kernel.exists_finished hK
    exact ⟨_, _, hrun.call hs ((hs.inv hK).finished_of_stuck hstuck)⟩

end SimRun

/-- In a test of a type with an exact exchange that starts without allocations every call ends, whatever was called before and
however the launches are scheduled, with the reduction of the iterations that the jump loops
cover. These are all iterations if and only if a team has 64 threads or each thread has at
most one iteration. -/
theorem sim_calls (hshfl : ExactShfl shflXor) (L : SimBuild) {d₀ d : SimDevice T}
    {calls : List (SimCall T)} {results : List T} (hfresh : ∀ n, d₀.num_teams n = 0) (h : SimRun shflXor L d₀ calls results d) :
    (∀ (call : SimCall T) xwave_lds td,
      (call.kernel shflXor L).Terminates ((d.allocate L call).memory call.rnv xwave_lds td) ∧
      ∀ s, (call.kernel shflXor L).Reaches ((d.allocate L call).memory call.rnv xwave_lds td) s →
        Stuck (call.kernel shflXor L).step s → (call.kernel shflXor L).Finished s) ∧
    results = calls.map (fun call => call.covered L) ∧
    ((∀ i ∈ L.loop, L.Covers i) → results = calls.map fun call => call.serial L) ∧
    ((∀ i ∈ L.loop, L.Covers i) ↔ 64 ≤ L.XTEAM_NUM_THREADS ∨
      L.size ≤ L.offset + L.stride * (L.XTEAM_NUM_TEAMS * L.XTEAM_NUM_THREADS)) := by
  have h₀ : d₀.Ready := fun n hn => absurd (hfresh n) hn
  have hresults := h.results_eq hshfl h₀
  refine ⟨fun call xwave_lds td => ?_, hresults, fun hall => ?_, L.covers_iff⟩
  · have hK := SimRun.undisturbed shflXor (L := L) (h.ready h₀) call xwave_lds td
    exact ⟨Kernel.terminates hK, fun s hs hstuck => (hs.inv hK).finished_of_stuck hstuck⟩
  · rw [hresults]
    apply List.map_congr_left
    intro call _
    rw [SimCall.covered, SimCall.serial, List.filter_eq_self.mpr fun i hi => by simpa using hall i hi]

/-- Two teams of 64 threads over five elements. -/
def fiveElements : SimBuild where
  XTEAM_NUM_TEAMS := 2
  XTEAM_NUM_THREADS := 64
  warp_size := 64
  stride := 1
  offset := 0
  size := 5
  teams_pos := Nat.two_pos
  threads_pow := ⟨6, rfl⟩
  threads_le := by decide
  stride_pos := Nat.one_pos
  fits := by decide

/-- `xteamr_shfl_xor` for the tag `_ui_tag`. -/
def uintShflXor (width : ℕ) (var : ℕ → Fin (2 ^ 32)) (self lane_mask : ℕ) : Fin (2 ^ 32) :=
  (shflXorInt width (fun lane => BitVec.ofFin (var lane)) self lane_mask).toFin

theorem uintShflXor_exact : ExactShfl uintShflXor := fun p var _ hself _ hmask =>
  congrArg BitVec.toFin (exactShflXor_eq p (fun lane => BitVec.ofFin (var lane)) hself hmask)

/-- Three calls over `unsigned int`, two of them of the same function. -/
def threeCalls : List (SimCall (Fin (2 ^ 32))) :=
  [.sim_dot (fun _ => 2) (fun _ => 3), .sim_max fun i => Fin.ofNat (2 ^ 32) (i + 1),
    .sim_dot (fun _ => 2 ^ 30) fun _ => 3]

/-- Nothing is allocated; the memory holds anything. -/
def unallocated : SimDevice (Fin (2 ^ 32)) := ⟨fun _ => 0, fun _ => 9, fun _ _ => 9⟩

theorem sim_calls_fiveElements :
    ∃ d, SimRun uintShflXor fiveElements unallocated threeCalls [30, 5, 3 * 2 ^ 30] d := by
  have hready : unallocated.Ready := fun _ hn => (hn rfl).elim
  obtain ⟨results, d, hrun⟩ := SimRun.exists_run uintShflXor fiveElements hready threeCalls
  obtain ⟨-, -, hserial, hcovers⟩ := sim_calls uintShflXor_exact fiveElements (fun _ => rfl) hrun
  have hloop : fiveElements.loop = [0, 1, 2, 3, 4] := by simp [SimBuild.loop, fiveElements, stridedLoop]
  have hresults := hserial (hcovers.mpr (.inl le_rfl))
  simp only [threeCalls, List.map_cons, List.map_nil, SimCall.serial, hloop] at hresults
  obtain rfl : results = [30, 5, 3 * 2 ^ 30] := hresults.trans (by decide +kernel)
  exact ⟨d, hrun⟩

end Aomp.Xteam
