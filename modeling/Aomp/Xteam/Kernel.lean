import Aomp.Foundations.TreeReduction

/-!
# The arguments of `_xteam_reduction` and the value it is to compute

A kernel fixes the template parameters, the shape of the launch and the arguments of all
calls of one instantiation. `resultValue` is the sequential reading of one call: shuffle each
wave, reduce the wave values, do both again over the team values, then take in the old
result and the team values beyond the block. It asks nothing of the reduction functions or
of the lane exchange.
-/
namespace Aomp.Xteam

open Foundations

variable {T : Type*}

/-- The functions that `_xteam_reduction` is called with. `rf a b` is what `(*_rf)(&a, b)`
leaves in `a`, `add` is the `atomic::add` of the type, and `shflXor` is `xteamr_shfl_xor`:
its arguments are `_WSZ`, the values of the lanes, the lane and the mask. -/
structure Ops (T : Type*) where
  rf : T → T → T
  rf_lds : T → T → T
  add : T → T → T
  rnv : T
  shflXor : ℕ → (ℕ → T) → ℕ → ℕ → T

/-- The lane that `xteamr_shfl_xor_int` reads. `x & ~(width - 1)` is `x` rounded down to a
multiple of the power of two `width`. -/
def shflIndex (width self lane_mask : ℕ) : ℕ :=
  let index := self ^^^ lane_mask
  if index ≥ (self + width) / width * width then self else index

def exactShflXor (width : ℕ) (val : ℕ → T) (self lane_mask : ℕ) : T :=
  val (shflIndex width self lane_mask)

/-- Inside a warp of a power of two of lanes the exchange reads the partner's value. -/
theorem shflIndex_eq {p self lane_mask : ℕ} (hs : self < 2 ^ p) (hm : lane_mask < 2 ^ p) :
    shflIndex (2 ^ p) self lane_mask = self ^^^ lane_mask := by
  have hlt : self ^^^ lane_mask < 2 ^ p := Nat.xor_lt_two_pow hs hm
  have hone : (self + 2 ^ p) / 2 ^ p = 1 := by
    rw [Nat.add_div_right _ (by positivity), Nat.div_eq_of_lt hs]
  unfold shflIndex
  rw [hone, one_mul]
  exact if_neg (by omega)

/-- A warp is a power of two of lanes. -/
theorem exists_warp_pow {WSZ : ℕ} (hwarp : WSZ = 32 ∨ WSZ = 64) : ∃ p, WSZ = 2 ^ p := by
  rcases hwarp with rfl | rfl
  · exact ⟨5, rfl⟩
  · exact ⟨6, rfl⟩

/-- One kernel whose threads all make `calls` calls of one instantiation. The call `c`
passes the value `val c k` for the iteration `k`, the array `tvs c` as `team_vals` and the
counter `td c` as `teams_done_ptr`; every call has a result pointer of its own. -/
structure Kernel (T : Type*) where
  ops : Ops T
  MaxNumWaves : ℕ
  WSZ : ℕ
  IS_FAST : Bool
  block_size : ℕ
  NumTeams : ℕ
  calls : ℕ
  val : ℕ → ℕ → T
  tvs : ℕ → ℕ
  td : ℕ → ℕ
  warp : WSZ = 32 ∨ WSZ = 64
  block_pow : ∃ m, block_size = 2 ^ m
  block_le : block_size ≤ MaxNumWaves * WSZ
  teams_pos : 1 ≤ NumTeams

-- The sizes of the launches that the modules below run.
theorem warp_32 : (32 : ℕ) = 32 ∨ (32 : ℕ) = 64 := .inl rfl
theorem warp_64 : (64 : ℕ) = 32 ∨ (64 : ℕ) = 64 := .inr rfl
theorem block_pow_2 : ∃ m, 2 = 2 ^ m := ⟨1, rfl⟩
theorem block_pow_64 : ∃ m, 64 = 2 ^ m := ⟨6, rfl⟩
theorem block_le_64 : 64 ≤ 2 * 32 := le_rfl

namespace Kernel

variable (K : Kernel T)

def number_of_waves : ℕ := (K.block_size - 1) / K.WSZ + 1

def start_offset : ℕ := if K.block_size < K.WSZ then K.block_size / 2 else K.WSZ / 2

/-- `omp_thread_num` of lane `lane_num` of the wave `wave_num`. -/
def threadNum (wave_num lane_num : ℕ) : ℕ := wave_num * K.WSZ + lane_num

def k (team wave_num lane_num : ℕ) : ℕ := team * K.block_size + K.threadNum wave_num lane_num

theorem WSZ_pow : ∃ p, K.WSZ = 2 ^ p ∧ 0 < p := by
  rcases K.warp with h | h
  · exact ⟨5, h, by omega⟩
  · exact ⟨6, h, by omega⟩

theorem WSZ_pos : 0 < K.WSZ := by
  rcases K.warp with h | h <;> omega

/-- Waves and lanes of a block are powers of two, the block is all of them, and the first
offset of the shuffle is half the lanes. -/
theorem shape : ∃ n p, K.number_of_waves = 2 ^ n ∧ K.block_size = 2 ^ n * 2 ^ p ∧
    2 ^ p ≤ K.WSZ ∧ (n = 0 ∨ K.WSZ = 2 ^ p) ∧ K.start_offset = 2 ^ p / 2 := by
  obtain ⟨m, hm⟩ := K.block_pow
  obtain ⟨q, hq, -⟩ := K.WSZ_pow
  unfold number_of_waves start_offset
  rw [hm, hq]
  rcases Nat.lt_or_ge m q with h | h
  · have hlt : 2 ^ m < 2 ^ q := Nat.pow_lt_pow_right (by omega) h
    refine ⟨0, m, ?_, by simp, hlt.le, .inl rfl, if_pos hlt⟩
    rw [Nat.div_eq_of_lt (by omega)]
    rfl
  · have hle : 2 ^ q ≤ 2 ^ m := Nat.pow_le_pow_right (by omega) h
    have hsplit : 2 ^ m = 2 ^ (m - q) * 2 ^ q := by rw [← pow_add, Nat.sub_add_cancel h]
    refine ⟨m - q, q, ?_, hsplit, le_rfl, .inr rfl, if_neg (by omega)⟩
    have hpos : 0 < 2 ^ (m - q) := by positivity
    have hq : 0 < 2 ^ q := by positivity
    have hone : 2 ^ m - 1 = (2 ^ (m - q) - 1) * 2 ^ q + (2 ^ q - 1) := by
      obtain ⟨a, ha⟩ := Nat.exists_eq_add_of_lt hpos
      rw [hsplit, ha, show 0 + a + 1 - 1 = a from by omega,
        show (0 + a + 1) * 2 ^ q = a * 2 ^ q + 2 ^ q from by ring]
      omega
    rw [hone, mul_comm, Nat.mul_add_div hq, Nat.div_eq_of_lt (by omega)]
    omega

theorem number_of_waves_pos : 0 < K.number_of_waves := Nat.succ_pos _

theorem number_of_waves_pow : ∃ n, K.number_of_waves = 2 ^ n := by
  obtain ⟨n, -, hn, -⟩ := K.shape
  exact ⟨n, hn⟩

end Kernel

/-- A call reduces the values of the threads, and then those of the teams. -/
inductive Round
  | threads
  | teams
  deriving DecidableEq

namespace Kernel

variable (K : Kernel T)

def waveValue (val : ℕ → T) : T := butterfly K.ops.rf (K.ops.shflXor K.WSZ) K.start_offset val 0

def threadVals (c team wave_num : ℕ) : ℕ → T := fun lane => K.val c (K.k team wave_num lane)

/-- The value that a team saves in `team_vals`. -/
def teamValue (c team : ℕ) : T :=
  pairTree K.ops.rf_lds K.number_of_waves (fun w => K.waveValue (K.threadVals c team w)) 1 0

def laneVals (r : Round) (c team wave_num : ℕ) : ℕ → T :=
  match r with
  | .threads => K.threadVals c team wave_num
  | .teams => fun lane => if K.threadNum wave_num lane < K.NumTeams then
      K.teamValue c (K.threadNum wave_num lane) else K.ops.rnv

/-- What `xwave_lds[i]` holds in a round after the tree rounds down to `off`. -/
def ldsValue (r : Round) (c team off i : ℕ) : T :=
  pairTree K.ops.rf_lds K.number_of_waves (fun w => K.waveValue (K.laneVals r c team w)) off i

/-- What thread 0 of the last team holds when the serial loop is at `off`. -/
def tailValue (c : ℕ) (r : T) (off : ℕ) : T :=
  ((List.range off).drop K.block_size).foldl (fun a i => K.ops.rf a (K.teamValue c i))
    (K.ops.rf (K.ldsValue .teams c 0 1 0) r)

/-- What the last team writes over the result `r`. -/
def resultValue (c : ℕ) (r : T) : T := K.tailValue c r K.NumTeams

theorem tailValue_of_le {c off : ℕ} {r : T} (h : off ≤ K.block_size) :
    K.tailValue c r off = K.ops.rf (K.ldsValue .teams c 0 1 0) r := by
  unfold tailValue
  rw [List.drop_eq_nil_of_le (by simpa using h)]
  rfl

theorem tailValue_succ {c off : ℕ} {r : T} (h : K.block_size ≤ off) :
    K.tailValue c r (off + 1) = K.ops.rf (K.tailValue c r off) (K.teamValue c off) := by
  unfold tailValue
  rw [List.range_succ, List.drop_append_of_le_length (by simpa using h), List.foldl_append]
  rfl

end Kernel

end Aomp.Xteam
