import Aomp.Xteam.CrossTeam

/-!
# The `_fast_sum` entry points for integers

An entry point `__kmpc_xteamr_<t>_<NW>x<WSZ>_fast_sum` is the template instantiation that its
body names. They agree with the plain sum where the instantiation is left undisturbed: the
fast one must not use `xwave_lds` for a second call while slower waves still read it, and
three of the entry points name the plain one, which needs its counter at 0.
-/
namespace Aomp.Xteam

open Foundations Kernel

/-- The template arguments of the `_xteam_reduction` that an entry point calls: the width of
its integer type, `_MaxNumWaves`, `_WSZ` and `_IS_FAST`. -/
structure EntryPoint where
  width : ℕ
  MaxNumWaves : ℕ
  WSZ : ℕ
  IS_FAST : Bool
  deriving DecidableEq

def kmpc_xteamr_i_16x64_fast_sum : EntryPoint := ⟨32, 16, 64, true⟩
def kmpc_xteamr_ui_16x64_fast_sum : EntryPoint := ⟨32, 16, 64, true⟩
def kmpc_xteamr_l_16x64_fast_sum : EntryPoint := ⟨64, 16, 64, true⟩
def kmpc_xteamr_ul_16x64_fast_sum : EntryPoint := ⟨64, 16, 64, true⟩
def kmpc_xteamr_i_8x64_fast_sum : EntryPoint := ⟨32, 8, 64, true⟩
def kmpc_xteamr_ui_8x64_fast_sum : EntryPoint := ⟨32, 8, 64, true⟩
def kmpc_xteamr_l_8x64_fast_sum : EntryPoint := ⟨64, 8, 64, true⟩
def kmpc_xteamr_ul_8x64_fast_sum : EntryPoint := ⟨64, 8, 64, true⟩
def kmpc_xteamr_i_4x64_fast_sum : EntryPoint := ⟨32, 4, 64, true⟩
def kmpc_xteamr_ui_4x64_fast_sum : EntryPoint := ⟨32, 4, 64, false⟩
def kmpc_xteamr_l_4x64_fast_sum : EntryPoint := ⟨64, 4, 64, false⟩
def kmpc_xteamr_ul_4x64_fast_sum : EntryPoint := ⟨64, 4, 64, false⟩
def kmpc_xteamr_i_2x64_fast_sum : EntryPoint := ⟨32, 2, 64, true⟩
def kmpc_xteamr_ui_2x64_fast_sum : EntryPoint := ⟨32, 2, 64, true⟩
def kmpc_xteamr_l_2x64_fast_sum : EntryPoint := ⟨64, 2, 64, true⟩
def kmpc_xteamr_ul_2x64_fast_sum : EntryPoint := ⟨64, 2, 64, true⟩
def kmpc_xteamr_i_1x64_fast_sum : EntryPoint := ⟨32, 1, 64, true⟩
def kmpc_xteamr_ui_1x64_fast_sum : EntryPoint := ⟨32, 1, 64, true⟩
def kmpc_xteamr_l_1x64_fast_sum : EntryPoint := ⟨64, 1, 64, true⟩
def kmpc_xteamr_ul_1x64_fast_sum : EntryPoint := ⟨64, 1, 64, true⟩
def kmpc_xteamr_i_32x32_fast_sum : EntryPoint := ⟨32, 32, 32, true⟩
def kmpc_xteamr_ui_32x32_fast_sum : EntryPoint := ⟨32, 32, 32, true⟩
def kmpc_xteamr_l_32x32_fast_sum : EntryPoint := ⟨64, 32, 32, true⟩
def kmpc_xteamr_ul_32x32_fast_sum : EntryPoint := ⟨64, 32, 32, true⟩
def kmpc_xteamr_i_16x32_fast_sum : EntryPoint := ⟨32, 16, 32, true⟩
def kmpc_xteamr_ui_16x32_fast_sum : EntryPoint := ⟨32, 16, 32, true⟩
def kmpc_xteamr_l_16x32_fast_sum : EntryPoint := ⟨64, 16, 32, true⟩
def kmpc_xteamr_ul_16x32_fast_sum : EntryPoint := ⟨64, 16, 32, true⟩
def kmpc_xteamr_i_8x32_fast_sum : EntryPoint := ⟨32, 8, 32, true⟩
def kmpc_xteamr_ui_8x32_fast_sum : EntryPoint := ⟨32, 8, 32, true⟩
def kmpc_xteamr_l_8x32_fast_sum : EntryPoint := ⟨64, 8, 32, true⟩
def kmpc_xteamr_ul_8x32_fast_sum : EntryPoint := ⟨64, 8, 32, true⟩
def kmpc_xteamr_i_4x32_fast_sum : EntryPoint := ⟨32, 4, 32, true⟩
def kmpc_xteamr_ui_4x32_fast_sum : EntryPoint := ⟨32, 4, 32, true⟩
def kmpc_xteamr_l_4x32_fast_sum : EntryPoint := ⟨64, 4, 32, true⟩
def kmpc_xteamr_ul_4x32_fast_sum : EntryPoint := ⟨64, 4, 32, true⟩
def kmpc_xteamr_i_2x32_fast_sum : EntryPoint := ⟨32, 2, 32, true⟩
def kmpc_xteamr_ui_2x32_fast_sum : EntryPoint := ⟨32, 2, 32, true⟩
def kmpc_xteamr_l_2x32_fast_sum : EntryPoint := ⟨64, 2, 32, true⟩
def kmpc_xteamr_ul_2x32_fast_sum : EntryPoint := ⟨64, 2, 32, true⟩
def kmpc_xteamr_i_1x32_fast_sum : EntryPoint := ⟨32, 1, 32, true⟩
def kmpc_xteamr_ui_1x32_fast_sum : EntryPoint := ⟨32, 1, 32, true⟩
def kmpc_xteamr_l_1x32_fast_sum : EntryPoint := ⟨64, 1, 32, true⟩
def kmpc_xteamr_ul_1x32_fast_sum : EntryPoint := ⟨64, 1, 32, true⟩

/-- All entry points for fast sums of `int`, `unsigned`, `long` and `unsigned long`. -/
def fastSums : List EntryPoint := [
  kmpc_xteamr_i_16x64_fast_sum, kmpc_xteamr_ui_16x64_fast_sum,
  kmpc_xteamr_l_16x64_fast_sum, kmpc_xteamr_ul_16x64_fast_sum,
  kmpc_xteamr_i_8x64_fast_sum, kmpc_xteamr_ui_8x64_fast_sum,
  kmpc_xteamr_l_8x64_fast_sum, kmpc_xteamr_ul_8x64_fast_sum,
  kmpc_xteamr_i_4x64_fast_sum, kmpc_xteamr_ui_4x64_fast_sum,
  kmpc_xteamr_l_4x64_fast_sum, kmpc_xteamr_ul_4x64_fast_sum,
  kmpc_xteamr_i_2x64_fast_sum, kmpc_xteamr_ui_2x64_fast_sum,
  kmpc_xteamr_l_2x64_fast_sum, kmpc_xteamr_ul_2x64_fast_sum,
  kmpc_xteamr_i_1x64_fast_sum, kmpc_xteamr_ui_1x64_fast_sum,
  kmpc_xteamr_l_1x64_fast_sum, kmpc_xteamr_ul_1x64_fast_sum,
  kmpc_xteamr_i_32x32_fast_sum, kmpc_xteamr_ui_32x32_fast_sum,
  kmpc_xteamr_l_32x32_fast_sum, kmpc_xteamr_ul_32x32_fast_sum,
  kmpc_xteamr_i_16x32_fast_sum, kmpc_xteamr_ui_16x32_fast_sum,
  kmpc_xteamr_l_16x32_fast_sum, kmpc_xteamr_ul_16x32_fast_sum,
  kmpc_xteamr_i_8x32_fast_sum, kmpc_xteamr_ui_8x32_fast_sum,
  kmpc_xteamr_l_8x32_fast_sum, kmpc_xteamr_ul_8x32_fast_sum,
  kmpc_xteamr_i_4x32_fast_sum, kmpc_xteamr_ui_4x32_fast_sum,
  kmpc_xteamr_l_4x32_fast_sum, kmpc_xteamr_ul_4x32_fast_sum,
  kmpc_xteamr_i_2x32_fast_sum, kmpc_xteamr_ui_2x32_fast_sum,
  kmpc_xteamr_l_2x32_fast_sum, kmpc_xteamr_ul_2x32_fast_sum,
  kmpc_xteamr_i_1x32_fast_sum, kmpc_xteamr_ui_1x32_fast_sum,
  kmpc_xteamr_l_1x32_fast_sum, kmpc_xteamr_ul_1x32_fast_sum]

/-- The entry points whose body leaves out the argument `true`. -/
def plainSums : List EntryPoint :=
  [kmpc_xteamr_ui_4x64_fast_sum, kmpc_xteamr_l_4x64_fast_sum, kmpc_xteamr_ul_4x64_fast_sum]

theorem isFast_iff : ∀ e ∈ fastSums, (e.IS_FAST = true ↔ e ∉ plainSums) := by
  decide

/-- `__kmpc_rfun_sum_<t>` and `__kmpc_rfun_sum_lds_<t>` with the neutral element 0. -/
def sumOps (w : ℕ) : Ops (BitVec w) := ⟨(· + ·), (· + ·), (· + ·), 0, exactShflXor⟩

theorem sumOps_lawful (w : ℕ) : (sumOps w).Lawful :=
  ⟨rfl, BitVec.add_assoc, BitVec.add_comm, fun a => BitVec.add_zero a,
    fun p v _ hs _ hm => exactShflXor_eq p v hs hm⟩

/-- The calls of the kernel are calls of the entry point with the sum functions. -/
structure EntryPoint.Runs (e : EntryPoint) (K : Kernel (BitVec e.width)) : Prop where
  ops : K.ops = sumOps e.width
  MaxNumWaves : K.MaxNumWaves = e.MaxNumWaves
  WSZ : K.WSZ = e.WSZ
  IS_FAST : K.IS_FAST = e.IS_FAST

/-- Every result is its old value plus the thread values of its call. -/
def SumsEq {w : ℕ} (K : Kernel (BitVec w)) (m : Memory (BitVec w)) (s : State (BitVec w)) : Prop :=
  ∀ c < K.calls, s.r_ptr c = foldRange (· + ·) (m.r_ptr c) (K.val c) (K.NumTeams * K.block_size)

theorem undisturbed_of_fast {T : Type*} {K : Kernel T} {m : Memory T} (hf : K.IS_FAST = true)
    (h : K.number_of_waves = 1 ∨ K.calls ≤ 1) : K.Undisturbed m := by
  refine ⟨?_, ?_, ?_, fun _ => h⟩ <;> simp [hf]

/-- In every run of a fast instantiation with one wave a team or one call, and of a plain one
whose calls have their own instances, the sums are those of the plain reduction. -/
theorem fast_sum_eq_plain_sum (e : EntryPoint) (he : e ∈ fastSums) (K : Kernel (BitVec e.width))
    (hruns : e.Runs K) (m : Memory (BitVec e.width))
    (hfast : e ∉ plainSums → K.number_of_waves = 1 ∨ K.calls ≤ 1)
    (hplain : e ∈ plainSums → K.OwnInstances m) :
    K.Terminates m ∧ ∀ s, K.Reaches m s → Stuck K.step s → K.Finished s ∧ SumsEq K m s := by
  have hops : K.ops.Lawful := hruns.ops ▸ sumOps_lawful e.width
  have hrf : K.ops.rf = (· + ·) := by rw [hruns.ops]; rfl
  have hadd : K.ops.add = K.ops.rf := by rw [hruns.ops]; rfl
  have hK : K.Undisturbed m := by
    by_cases hmem : e ∈ plainSums
    · exact (hplain hmem).undisturbed
    · exact undisturbed_of_fast (hruns.IS_FAST.trans ((isFast_iff e he).mpr hmem)) (hfast hmem)
  refine ⟨terminates hK, fun s hs hstuck => ?_⟩
  have hinv := Reaches.inv hK hs
  have hfin := hinv.finished_of_stuck hstuck
  refine ⟨hfin, fun c hc => ?_⟩
  rw [← hrf]
  cases hf : K.IS_FAST with
  | false => rw [(hinv.finished_plain hfin hf hc).1, K.resultValue_eq_fold hops]
  | true => rw [hinv.added hf c hc, K.added_eq_fold hops hadd c _ (hinv.arrived_perm hfin hc)]

/-- Two waves of 32 threads and one call of a fast entry point. -/
def oneCall : Kernel (BitVec 32) where
  ops := sumOps 32
  MaxNumWaves := 2
  WSZ := 32
  IS_FAST := true
  block_size := 64
  NumTeams := 2
  calls := 1
  val _ k := BitVec.ofNat 32 k
  tvs _ := 0
  td _ := 0
  warp := warp_32
  block_pow := block_pow_64
  block_le := block_le_64
  teams_pos := Nat.two_pos

theorem fast_sum_eq_plain_sum_oneCall : ∃ s,
    oneCall.Reaches ⟨fun _ _ => 9, fun _ => 9, fun _ _ => 9, fun _ => 9, fun _ => 7⟩ s ∧
      s.r_ptr 0 = 8135 := by
  obtain ⟨s, hs, hstuck⟩ := exists_finished (K := oneCall)
    (m := ⟨fun _ _ => 9, fun _ => 9, fun _ _ => 9, fun _ => 9, fun _ => 7⟩)
    (undisturbed_of_fast rfl (.inr le_rfl))
  have hsum := ((fast_sum_eq_plain_sum kmpc_xteamr_ui_2x32_fast_sum (by decide) oneCall
    ⟨rfl, rfl, rfl, rfl⟩ _ (fun _ => .inr le_rfl) (fun h => absurd h (by decide))).2 s hs hstuck).2
  have hfold : foldRange (· + ·) (7 : BitVec 32) (oneCall.val 0) 128 = 8135 := by decide +kernel
  exact ⟨s, hs, (hsum 0 (by decide)).trans hfold⟩

instance {w : ℕ} (K : Kernel (BitVec w)) (s : State (BitVec w)) : Decidable (K.Finished s) :=
  inferInstanceAs (Decidable (∀ t < K.NumTeams, ∀ w < K.number_of_waves,
    ((s.teams t).waves w).pc = .done))

def oneThread : Kernel (BitVec 32) where
  ops := sumOps 32
  MaxNumWaves := 4
  WSZ := 64
  IS_FAST := false
  block_size := 1
  NumTeams := 1
  calls := 1
  val _ _ := 5
  tvs _ := 0
  td _ := 0
  warp := warp_64
  block_pow := ⟨0, rfl⟩
  block_le := by decide
  teams_pos := Nat.one_pos

theorem oneThread_unsummed : ((runChecked oneThread.step (fun _ _ => true)
    (oneThread.init ⟨fun _ _ => 0, fun _ => 0, fun _ _ => 0, fun _ => 1, fun _ => 0⟩)
      (List.replicate 5 (.run 0 0) ++ [.release 0, .run 0 0])).map fun s =>
        (decide (oneThread.Finished s), s.r_ptr 0)) = some (true, 0) := by
  decide +kernel

/-- Two waves and two calls; only thread 32 passes a value, 1 in the second call. -/
def twoWaves : Kernel (BitVec 32) where
  ops := sumOps 32
  MaxNumWaves := 2
  WSZ := 32
  IS_FAST := true
  block_size := 64
  NumTeams := 1
  calls := 2
  val c k := if c = 1 ∧ k = 32 then 1 else 0
  tvs _ := 0
  td _ := 0
  warp := warp_32
  block_pow := block_pow_64
  block_le := block_le_64
  teams_pos := Nat.one_pos

theorem twoWaves_overtaken : ((runChecked twoWaves.step (fun _ _ => true)
    (twoWaves.init ⟨fun _ _ => 0, fun _ => 0, fun _ _ => 0, fun _ => 0, fun _ => 0⟩)
      ([.run 0 0, .run 0 1, .release 0] ++ List.replicate 4 (.run 0 1) ++
        List.replicate 6 (.run 0 0) ++ [.release 0] ++ List.replicate 3 (.run 0 1) ++
        List.replicate 5 (.run 0 0))).map fun s =>
          (decide (twoWaves.Finished s), s.r_ptr 0)) = some (true, 1) := by
  decide +kernel

/-- A plain one among the entry points misses the sum of a single call, and a fast one that
of the first of two calls. -/
theorem fast_sum_ne_plain_sum :
    (∃ e ∈ plainSums, ∃ (K : Kernel (BitVec e.width)) (m : Memory _) (s : State _),
      e.Runs K ∧ K.calls = 1 ∧ K.Reaches m s ∧ K.Finished s ∧ ¬ SumsEq K m s) ∧
    ∃ e ∈ fastSums, e ∉ plainSums ∧ ∃ (K : Kernel (BitVec e.width)) (m : Memory _) (s : State _),
      e.Runs K ∧ K.Reaches m s ∧ K.Finished s ∧ ¬ SumsEq K m s := by
  constructor
  · obtain ⟨s, hs, hend⟩ := Option.map_eq_some_iff.mp oneThread_unsummed
    obtain ⟨hfin, hr⟩ := Prod.mk.inj hend
    have hfin : oneThread.Finished s := of_decide_eq_true hfin
    refine ⟨kmpc_xteamr_ui_4x64_fast_sum, by decide, oneThread, _, s, ⟨rfl, rfl, rfl, rfl⟩, rfl,
      Reachable.of_runChecked (fun _ _ _ => trivial) _ _ hs, hfin, fun hsum => ?_⟩
    have hfold : foldRange (· + ·) (0 : BitVec 32) (oneThread.val 0) 1 = 5 := by decide
    have h0 : (0 : BitVec 32) = 5 := hr.symm.trans ((hsum 0 (by decide)).trans hfold)
    exact absurd h0 (by decide)
  · obtain ⟨s, hs, hend⟩ := Option.map_eq_some_iff.mp twoWaves_overtaken
    obtain ⟨hfin, hr⟩ := Prod.mk.inj hend
    have hfin : twoWaves.Finished s := of_decide_eq_true hfin
    refine ⟨kmpc_xteamr_i_2x32_fast_sum, by decide, by decide, twoWaves, _, s,
      ⟨rfl, rfl, rfl, rfl⟩, Reachable.of_runChecked (fun _ _ _ => trivial) _ _ hs,
      hfin, fun hsum => ?_⟩
    have hfold : foldRange (· + ·) (0 : BitVec 32) (twoWaves.val 0) 64 = 0 := by decide +kernel
    have h0 : (1 : BitVec 32) = 0 := hr.symm.trans ((hsum 0 (by decide)).trans hfold)
    exact absurd h0 (by decide)

end Aomp.Xteam
