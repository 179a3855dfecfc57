import Aomp.Xteam.ExactCall
import Aomp.Xteam.Exchange

/-!
# Reductions over `long` and `unsigned long`

`_xteam_reduction` and `_iteam_reduction` with the exchange through `double`: their exchanges are
exact if and only if all the partial results that they exchange have at most 53 significant bits,
and their results are exact where the ones that lane 0 depends on do.
-/
namespace Aomp.Xteam

open Foundations Kernel

/-- `*val += otherval`. -/
def rfunSum (val otherval : BitVec 64) : BitVec 64 := val + otherval

/-- `*val = (otherval < *val) ? otherval : *val`. -/
def rfunMin (ty : Int64Type) (val otherval : BitVec 64) : BitVec 64 :=
  if ty.value otherval < ty.value val then otherval else val

/-- `*val = (otherval > *val) ? otherval : *val`. -/
def rfunMax (ty : Int64Type) (val otherval : BitVec 64) : BitVec 64 :=
  if ty.value otherval > ty.value val then otherval else val

def kmpc_rfun_sum_l := rfunSum
def kmpc_rfun_sum_ul := rfunSum
def kmpc_rfun_min_l := rfunMin .long
def kmpc_rfun_min_ul := rfunMin .ulong
def kmpc_rfun_max_l := rfunMax .long
def kmpc_rfun_max_ul := rfunMax .ulong

/-- A reduction over one of the 64-bit integer types. -/
structure Reduction64 where
  type : Int64Type
  rf : BitVec 64 → BitVec 64 → BitVec 64
  rnv : BitVec 64
  assoc : ∀ a b c, rf (rf a b) c = rf a (rf b c)
  comm : ∀ a b, rf a b = rf b a
  neutral : ∀ a, rf a rnv = a

theorem Int64Type.value_inj {ty : Int64Type} {x y : BitVec 64} (h : ty.value x = ty.value y) :
    x = y := by
  rw [← ty.ofInt_value x, ← ty.ofInt_value y, h]

theorem rfunMin_assoc (ty : Int64Type) (a b c : BitVec 64) :
    rfunMin ty (rfunMin ty a b) c = rfunMin ty a (rfunMin ty b c) := by
  unfold rfunMin
  split_ifs <;> first | rfl | (exfalso; omega)

theorem rfunMin_comm (ty : Int64Type) (a b : BitVec 64) : rfunMin ty a b = rfunMin ty b a := by
  unfold rfunMin
  split_ifs with h h'
  · omega
  · rfl
  · rfl
  · have hval : ty.value a = ty.value b := by omega
    exact Int64Type.value_inj hval

theorem rfunMin_neutral {ty : Int64Type} {rnv : BitVec 64} (h : ∀ a, ty.value a ≤ ty.value rnv)
    (a : BitVec 64) : rfunMin ty a rnv = a :=
  if_neg (not_lt.mpr (h a))

theorem rfunMax_assoc (ty : Int64Type) (a b c : BitVec 64) :
    rfunMax ty (rfunMax ty a b) c = rfunMax ty a (rfunMax ty b c) := by
  unfold rfunMax
  split_ifs <;> first | rfl | (exfalso; omega)

theorem rfunMax_comm (ty : Int64Type) (a b : BitVec 64) : rfunMax ty a b = rfunMax ty b a := by
  unfold rfunMax
  split_ifs with h h'
  · omega
  · rfl
  · rfl
  · have hval : ty.value a = ty.value b := by omega
    exact Int64Type.value_inj hval

theorem rfunMax_neutral {ty : Int64Type} {rnv : BitVec 64} (h : ∀ a, ty.value rnv ≤ ty.value a)
    (a : BitVec 64) : rfunMax ty a rnv = a :=
  if_neg (not_lt.mpr (h a))

namespace Reduction64

def sumL : Reduction64 :=
  ⟨.long, kmpc_rfun_sum_l, 0, BitVec.add_assoc, BitVec.add_comm, fun a => BitVec.add_zero a⟩

def sumUl : Reduction64 :=
  ⟨.ulong, kmpc_rfun_sum_ul, 0, BitVec.add_assoc, BitVec.add_comm, fun a => BitVec.add_zero a⟩

def minL : Reduction64 :=
  ⟨.long, kmpc_rfun_min_l, BitVec.intMax 64, rfunMin_assoc .long, rfunMin_comm .long,
    rfunMin_neutral fun a => Int.le_of_lt_add_one (Int64Type.long.inRange_value a).2⟩

def minUl : Reduction64 :=
  ⟨.ulong, kmpc_rfun_min_ul, BitVec.allOnes 64, rfunMin_assoc .ulong, rfunMin_comm .ulong,
    rfunMin_neutral fun a => Int.le_of_lt_add_one (Int64Type.ulong.inRange_value a).2⟩

def maxL : Reduction64 :=
  ⟨.long, kmpc_rfun_max_l, BitVec.intMin 64, rfunMax_assoc .long, rfunMax_comm .long,
    rfunMax_neutral fun a => (Int64Type.long.inRange_value a).1⟩

def maxUl : Reduction64 :=
  ⟨.ulong, kmpc_rfun_max_ul, 0, rfunMax_assoc .ulong, rfunMax_comm .ulong,
    rfunMax_neutral fun a => (Int64Type.ulong.inRange_value a).1⟩

/-- The arguments of a call with an exact exchange. -/
def ops (R : Reduction64) : Ops (BitVec 64) := ⟨R.rf, R.rf, (· + ·), R.rnv, exactShflXor⟩

theorem ops_lawful (R : Reduction64) : R.ops.Lawful :=
  ⟨rfl, R.assoc, R.comm, R.neutral, fun p v _ hs _ hm => exactShflXor_eq p v hs hm⟩

end Reduction64

/-- The reduction of the lanes that are equal to `r` modulo `n`. -/
def Reduction64.laneFold (R : Reduction64) (lanes : ℕ) (v : ℕ → BitVec 64) (n r : ℕ) : BitVec 64 :=
  foldRange R.rf R.rnv (fun i => v (r + n * i)) (lanes / n)

/-- The reductions of the lanes that are equal modulo a power of two above 1 have at most 53
significant bits each; the largest power stands for the values of the lanes. -/
def LanesFit (R : Reduction64) (lanes : ℕ) (v : ℕ → BitVec 64) : Prop :=
  ∀ j, 0 < j → 2 ^ j ≤ lanes → ∀ r < 2 ^ j, R.type.Fits (R.laneFold lanes v (2 ^ j) r)

/-- What the lower half of the lanes of each round gets from the upper half has at most 53
significant bits. Lane 0 depends on nothing else. -/
def ReceivedFit (R : Reduction64) (lanes : ℕ) (v : ℕ → BitVec 64) : Prop :=
  ∀ j, 2 ^ (j + 1) ≤ lanes → ∀ r < 2 ^ j, R.type.Fits (R.laneFold lanes v (2 ^ (j + 1)) (r + 2 ^ j))

theorem pairTree_eq_laneFold (R : Reduction64) (v : ℕ → BitVec 64) {p j r : ℕ} (hj : j ≤ p)
    (hr : r < 2 ^ j) : pairTree R.rf (2 ^ p) v (2 ^ j) r = R.laneFold (2 ^ p) v (2 ^ j) r :=
  R.ops_lawful.pairTree_eq_fold v hj hr

theorem shflXor_relay (ty : Int64Type) {WSZ p : ℕ} (hwarp : WSZ = 32 ∨ WSZ = 64) (hle : 2 ^ p ≤ WSZ)
    (poison : BitVec 64 → BitVec 64) (v : ℕ → BitVec 64) {l o : ℕ} (hl : l < 2 ^ p) (ho : o < 2 ^ p) :
    ty.shflXor poison WSZ v l o = ty.relay poison (v (l ^^^ o)) := by
  obtain ⟨q, rfl⟩ := exists_warp_pow hwarp
  rw [Int64Type.shflXor_eq_relay, shflIndex_eq (by omega) (by omega)]

/-- The rounds of the shuffle through `double` are exact if and only if the lanes fit. -/
theorem exactRounds_iff_lanesFit (R : Reduction64) {WSZ p : ℕ} (hwarp : WSZ = 32 ∨ WSZ = 64)
    (hle : 2 ^ p ≤ WSZ) (v : ℕ → BitVec 64) :
    (∀ poison, ExactRounds R.rf (R.type.shflXor poison WSZ) (2 ^ p) (halvings (2 ^ p / 2)) v) ↔
      LanesFit R (2 ^ p) v := by
  have hiff : ∀ poison, ExactRounds R.rf (R.type.shflXor poison WSZ) (2 ^ p)
      (halvings (2 ^ p / 2)) v ↔ ∀ j, 0 < j → j ≤ p → ∀ r < 2 ^ j,
        R.type.relay poison (pairTree R.rf (2 ^ p) v (2 ^ j) r) =
          pairTree R.rf (2 ^ p) v (2 ^ j) r := by
    intro poison
    apply exactRounds_iff R.comm le_rfl
    · intro v l hl o ho
      exact shflXor_relay R.type hwarp hle poison v hl ho
    · intro l hl
      rw [pairTree_of_le le_rfl, Nat.mod_eq_of_lt hl]
  constructor
  · intro h j hj hle r hr
    have hjp : j ≤ p := (Nat.pow_le_pow_iff_right (by omega)).mp hle
    rw [← pairTree_eq_laneFold R v hjp hr, ← R.type.relay_eq_iff]
    exact fun poison => (hiff poison).mp (h poison) j hj hjp r hr
  · intro h poison
    apply (hiff poison).mpr
    intro j hj hjp r hr
    have hfits := h j hj (Nat.pow_le_pow_right (by omega) hjp) r hr
    rw [← pairTree_eq_laneFold R v hjp hr, ← R.type.relay_eq_iff] at hfits
    exact hfits poison

theorem butterfly_eq_of_receivedFit {R : Reduction64} {WSZ p : ℕ} (hwarp : WSZ = 32 ∨ WSZ = 64)
    (hle : 2 ^ p ≤ WSZ) {v : ℕ → BitVec 64} (h : ReceivedFit R (2 ^ p) v)
    (poison : BitVec 64 → BitVec 64) : butterfly R.rf (R.type.shflXor poison WSZ) (2 ^ p / 2) v 0 =
      pairTree R.rf (2 ^ p) v 1 0 := by
  have hrelay : ∀ v, ∀ l < 2 ^ p, ∀ o < 2 ^ p,
      R.type.shflXor poison WSZ v l o = R.type.relay poison (v (l ^^^ o)) := fun v l hl o ho =>
    shflXor_relay R.type hwarp hle poison v hl ho
  refine butterfly_zero_eq_pairTree le_rfl hrelay (fun j hj r hr => ?_) fun l _ =>
    (pairTree_of_le le_rfl).symm
  have hfits := h j (Nat.pow_le_pow_right (by omega) hj) r hr
  rw [← pairTree_eq_laneFold R v hj (by omega), ← R.type.relay_eq_iff] at hfits
  exact hfits poison

namespace Reduction64

variable (R : Reduction64) (K : Kernel (BitVec 64)) (m : Memory (BitVec 64))

/-- The kernel makes one call with the functions of the reduction. -/
structure OneCall : Prop where
  ops : K.ops = R.ops
  one : K.calls = 1
  fast : K.IS_FAST = true → R.rf = (· + ·)
  teams_done : K.IS_FAST = false → m.teams_done (K.td 0) = 0

def teamFold (team : ℕ) : BitVec 64 :=
  foldRange R.rf R.rnv (fun i => K.val 0 (team * K.block_size + i)) K.block_size

/-- The thread values of every wave fit, and so do the team values that a plain call
shuffles in its second round. -/
structure CallFits (fit : ℕ → (ℕ → BitVec 64) → Prop) : Prop where
  threads : ∀ t < K.NumTeams, ∀ w < K.number_of_waves,
    fit K.lanesPerWave fun lane => K.val 0 (K.k t w lane)
  teams : K.IS_FAST = false → ∀ w < K.number_of_waves, fit K.lanesPerWave fun lane =>
    if K.threadNum w lane < K.NumTeams then R.teamFold K (K.threadNum w lane) else R.rnv

/-- The kernel with the exchange through `double`. -/
def viaDouble (poison : BitVec 64 → BitVec 64) : Kernel (BitVec 64) :=
  K.withExchange (R.type.shflXor poison)

/-- In every run of the kernel all exchanges of the waves are exact. -/
structure ExactExchanges (poison : BitVec 64 → BitVec 64) : Prop where
  call : (R.viaDouble K poison).ExactCall
  exchanges : ∀ s, (R.viaDouble K poison).Reaches m s → ∀ t < K.NumTeams,
    ∀ w < K.number_of_waves, ∀ r, ((s.teams t).waves w).pc = .work r →
      (R.viaDouble K poison).ExactWave ((s.teams t).waves w).val

/-- Every run of the kernel ends with the reduction of the old result and all thread values. -/
structure ExactResult (poison : BitVec 64 → BitVec 64) : Prop where
  terminates : (R.viaDouble K poison).Terminates m
  result : ∀ s, (R.viaDouble K poison).Reaches m s → Stuck (R.viaDouble K poison).step s →
    (R.viaDouble K poison).Finished s ∧
      s.r_ptr 0 = foldRange R.rf (m.r_ptr 0) (K.val 0) (K.NumTeams * K.block_size)

variable {R K m}

theorem OneCall.undisturbed (h : R.OneCall K m) : K.Undisturbed m := by
  have hone := h.one
  refine ⟨fun _ c hc c' hc' _ => by omega, fun _ c hc c' hc' _ => by omega, fun hf c hc => ?_,
    fun _ => .inr (by omega)⟩
  obtain rfl : c = 0 := by omega
  exact h.teams_done hf

theorem OneCall.lawful (h : R.OneCall K m) : K.ops.Lawful := h.ops ▸ R.ops_lawful

theorem OneCall.teamValue_eq (h : R.OneCall K m) (t : ℕ) : K.teamValue 0 t = R.teamFold K t := by
  rw [K.teamValue_eq_fold h.lawful, h.ops]
  rfl

theorem exactWave_iff (hops : K.ops = R.ops) (v : ℕ → BitVec 64) :
    (∀ poison, (R.viaDouble K poison).ExactWave v) ↔ LanesFit R K.lanesPerWave v := by
  obtain ⟨p, hlanes, hle, hoff⟩ := K.lanesPerWave_spec
  rw [hlanes, ← exactRounds_iff_lanesFit R K.warp hle]
  apply forall_congr'
  intro poison
  show ExactRounds K.ops.rf (R.type.shflXor poison K.WSZ) K.lanesPerWave
    (halvings K.start_offset) v ↔ _
  rw [hlanes, hoff, hops]
  rfl

theorem OneCall.teamLanes_eq (h : R.OneCall K m) (w : ℕ) : K.laneVals .teams 0 0 w =
    fun lane => if K.threadNum w lane < K.NumTeams then R.teamFold K (K.threadNum w lane)
      else R.rnv := by
  funext lane
  dsimp only [laneVals]
  rw [h.teamValue_eq, h.ops]
  rfl

/-- All exchanges of a call are exact if and only if all lanes fit. -/
theorem OneCall.exactCall_iff (h : R.OneCall K m) :
    (∀ poison, (R.viaDouble K poison).ExactCall) ↔ R.CallFits K (LanesFit R) := by
  constructor
  · intro hexact
    refine ⟨fun t ht w hw => ?_, fun hf w hw => ?_⟩
    · exact (exactWave_iff h.ops _).mp fun poison => (hexact poison).threads t ht w hw
    · rw [← h.teamLanes_eq, ← exactWave_iff h.ops]
      intro poison
      have hwave := (hexact poison).teams hf w hw
      have hsame : ∀ t < K.NumTeams, ∀ w < K.number_of_waves,
          K.SameWave (R.type.shflXor poison) (K.laneVals .threads 0 t w) := fun t ht w hw =>
        ((hexact poison).threads t ht w hw).sameWave h.lawful
      rwa [viaDouble, withExchange_teamVals hsame] at hwave
  · intro hfits poison
    have hthreads : ∀ t < K.NumTeams, ∀ w < K.number_of_waves,
        (R.viaDouble K poison).ExactWave (K.laneVals .threads 0 t w) := fun t ht w hw =>
      (exactWave_iff h.ops _).mpr (hfits.threads t ht w hw) poison
    refine ⟨hthreads, fun hf w hw => ?_⟩
    have hteams := hfits.teams hf w hw
    rw [← h.teamLanes_eq, ← exactWave_iff h.ops] at hteams
    rw [viaDouble, withExchange_teamVals fun t ht w hw => (hthreads t ht w hw).sameWave h.lawful]
    exact hteams poison

theorem OneCall.exactExchanges_iff (h : R.OneCall K m) :
    (∀ poison, R.ExactExchanges K m poison) ↔ R.CallFits K (LanesFit R) := by
  rw [← h.exactCall_iff]
  refine forall_congr' fun poison => ⟨ExactExchanges.call, fun hcall => ⟨hcall, ?_⟩⟩
  intro s hs t ht w hw r hpc
  exact hcall.of_reaches h.one (h.undisturbed.withExchange _) hs ht hw hpc

theorem OneCall.sameWave (h : R.OneCall K m) {v : ℕ → BitVec 64} (hfit : ReceivedFit R K.lanesPerWave v)
    (poison : BitVec 64 → BitVec 64) : K.SameWave (R.type.shflXor poison) v := by
  obtain ⟨p, hlanes, hle, hoff⟩ := K.lanesPerWave_spec
  rw [hlanes] at hfit
  have htree := butterfly_eq_of_receivedFit K.warp hle hfit poison
  have hexact := (exactWave_of_lawful h.lawful v).waveValue_eq h.lawful.comm
  have hrf : K.ops.rf = R.rf := by rw [h.ops]; rfl
  rw [hlanes, hrf, ← htree, ← hoff, ← hrf] at hexact
  exact hexact.symm

/-- A call is exact if what the lower halves of its waves get fits. -/
theorem OneCall.exactResult (h : R.OneCall K m) (hfits : R.CallFits K (ReceivedFit R))
    (poison : BitVec 64 → BitVec 64) : R.ExactResult K m poison := by
  have hK : (R.viaDouble K poison).Undisturbed m := h.undisturbed.withExchange _
  have hrf : K.ops.rf = R.rf := by rw [h.ops]; rfl
  have hthreads : ∀ t < K.NumTeams, ∀ w < K.number_of_waves,
      K.SameWave (R.type.shflXor poison) (K.laneVals .threads 0 t w) := fun t ht w hw =>
    h.sameWave (hfits.threads t ht w hw) poison
  refine ⟨Kernel.terminates hK, fun s hs hstuck => ?_⟩
  have hinv := Reaches.inv hK hs
  have hfin := hinv.finished_of_stuck hstuck
  have hone : 0 < (R.viaDouble K poison).calls := by
    show 0 < K.calls
    rw [h.one]
    exact one_pos
  refine ⟨hfin, ?_⟩
  rw [← hrf]
  cases hf : K.IS_FAST with
  | false =>
    have hteams : ∀ w < K.number_of_waves,
        K.SameWave (R.type.shflXor poison) (K.laneVals .teams 0 0 w) := by
      intro w hw
      rw [h.teamLanes_eq]
      exact h.sameWave (hfits.teams hf w hw) poison
    rw [(hinv.finished_plain hfin hf hone).1, viaDouble, withExchange_resultValue hthreads hteams,
      K.resultValue_eq_fold h.lawful]
  | true =>
    have hadd : K.ops.add = K.ops.rf := by
      rw [h.ops]
      exact (h.fast hf).symm
    have hperm := hinv.arrived_perm hfin hone
    have hlt : ∀ i ∈ s.arrived 0, i < K.NumTeams := fun i hi =>
      List.mem_range.mp (hperm.mem_iff.mp hi)
    rw [hinv.added hf 0 hone]
    apply (withExchange_foldl hthreads K.ops.add _ hlt _).trans
    exact K.added_eq_fold h.lawful hadd 0 _ hperm

end Reduction64

namespace Reduction64

variable (R : Reduction64)

/-- The arguments of a call of `_iteam_reduction` with the exchange through `double`. -/
def opsViaDouble (poison : BitVec 64 → BitVec 64) : Ops (BitVec 64) :=
  { R.ops with shflXor := R.type.shflXor poison }

/-- All exchanges of a wave of a call of `_iteam_reduction` are exact. -/
def ExactWarp (WSZ : ℕ) (v : ℕ → BitVec 64) (poison : BitVec 64 → BitVec 64) : Prop :=
  ExactRounds R.rf (R.type.shflXor poison WSZ) WSZ (halvings (WSZ / 2)) v

variable {R}

theorem exactWarp_iff {WSZ : ℕ} (hwarp : WSZ = 32 ∨ WSZ = 64) (v : ℕ → BitVec 64) :
    (∀ poison, R.ExactWarp WSZ v poison) ↔ LanesFit R WSZ v := by
  obtain ⟨p, rfl⟩ := exists_warp_pow hwarp
  exact exactRounds_iff_lanesFit R hwarp le_rfl v

theorem iteam_reduction_of_fit {n WSZ : ℕ} (hwarp : WSZ = 32 ∨ WSZ = 64) {val : ℕ → BitVec 64}
    (hfits : ∀ w < 2 ^ n, ReceivedFit R WSZ fun lane => val (w * WSZ + lane))
    (poison : BitVec 64 → BitVec 64) : iteam_reduction (R.opsViaDouble poison) (2 ^ n) WSZ val =
      foldRange R.rf R.rnv val (2 ^ n * WSZ) := by
  obtain ⟨p, rfl⟩ := exists_warp_pow hwarp
  exact iteam_reduction_eq R.ops_lawful fun w hw =>
    butterfly_eq_of_receivedFit hwarp le_rfl (hfits w hw) poison

end Reduction64

/-- The exchange of 64-bit integers brings every lane its partner's value if and only if the
values have at most 53 significant bits, and all exchanges of a call are exact if and only if the
partial results that it exchanges do. A call of `_xteam_reduction` or `_iteam_reduction` returns
the exact result if those that reach lane 0 do. -/
theorem int64_reductions_exact (R : Reduction64) :
    (∀ WSZ, WSZ = 32 ∨ WSZ = 64 → ∀ var : ℕ → BitVec 64,
      (∀ poison, ∀ self < WSZ, ∀ lane_mask < WSZ,
        R.type.shflXor poison WSZ var self lane_mask = var (self ^^^ lane_mask)) ↔
          ∀ lane < WSZ, R.type.Fits (var lane)) ∧
    (∀ K m, R.OneCall K m →
      ((∀ poison, R.ExactExchanges K m poison) ↔ R.CallFits K (LanesFit R)) ∧
      (R.CallFits K (ReceivedFit R) → ∀ poison, R.ExactResult K m poison)) ∧
    ∀ n WSZ, WSZ = 32 ∨ WSZ = 64 → ∀ val : ℕ → BitVec 64,
      ((∀ poison, ∀ w < 2 ^ n, R.ExactWarp WSZ (fun lane => val (w * WSZ + lane)) poison) ↔
        ∀ w < 2 ^ n, LanesFit R WSZ fun lane => val (w * WSZ + lane)) ∧
      ((∀ w < 2 ^ n, ReceivedFit R WSZ fun lane => val (w * WSZ + lane)) → ∀ poison,
        iteam_reduction (R.opsViaDouble poison) (2 ^ n) WSZ val =
          foldRange R.rf R.rnv val (2 ^ n * WSZ)) := by
  refine ⟨fun WSZ hwarp var => R.type.shflXor_eq_iff hwarp var, fun K m h =>
    ⟨h.exactExchanges_iff, h.exactResult⟩, fun n WSZ hwarp val =>
    ⟨?_, Reduction64.iteam_reduction_of_fit hwarp⟩⟩
  constructor
  · intro h w hw
    exact (Reduction64.exactWarp_iff hwarp _).mp fun poison => h poison w hw
  · intro h poison w hw
    exact (Reduction64.exactWarp_iff hwarp _).mpr (h w hw) poison

/-- One team of two threads, the second of which passes the value. -/
def twoThreads (value : BitVec 64) : Kernel (BitVec 64) where
  ops := Reduction64.sumL.ops
  MaxNumWaves := 16
  WSZ := 64
  IS_FAST := false
  block_size := 2
  NumTeams := 1
  calls := 1
  val _ k := if k = 1 then value else 0
  tvs _ := 0
  td _ := 0
  warp := warp_64
  block_pow := block_pow_2
  block_le := by decide
  teams_pos := Nat.one_pos

theorem twoThreads_oneCall (value : BitVec 64) (m : Memory (BitVec 64)) (h : m.teams_done 0 = 0) :
    Reduction64.sumL.OneCall (twoThreads value) m :=
  ⟨rfl, rfl, fun hf => Bool.noConfusion hf, fun _ => h⟩

theorem lanesFit_two (R : Reduction64) {v : ℕ → BitVec 64} (h0 : R.type.Fits (R.laneFold 2 v 2 0))
    (h1 : R.type.Fits (R.laneFold 2 v 2 1)) : LanesFit R 2 v := by
  intro j hj hle r hr
  obtain rfl : j = 1 := by
    have : j < 2 := (Nat.pow_lt_pow_iff_right (a := 2) (by omega)).mp (by omega)
    omega
  obtain rfl | rfl : r = 0 ∨ r = 1 := by omega
  · exact h0
  · exact h1

theorem receivedFit_two {R : Reduction64} {v : ℕ → BitVec 64} (h : R.type.Fits (R.laneFold 2 v 2 1)) :
    ReceivedFit R 2 v := by
  intro j hle r hr
  obtain rfl : j = 0 := by
    have : j + 1 < 2 := (Nat.pow_lt_pow_iff_right (a := 2) (by omega)).mp (by omega)
    omega
  obtain rfl : r = 0 := by omega
  exact h

theorem callFits_twoThreads {fit : ℕ → (ℕ → BitVec 64) → Prop} {value : BitVec 64}
    (hthreads : fit 2 fun lane => (twoThreads value).val 0 ((twoThreads value).k 0 0 lane))
    (hteams : fit 2 fun lane => if (twoThreads value).threadNum 0 lane < 1 then
      Reduction64.sumL.teamFold (twoThreads value) ((twoThreads value).threadNum 0 lane) else 0) :
    Reduction64.sumL.CallFits (twoThreads value) fit := by
  have hwaves : (twoThreads value).number_of_waves = 1 := by simp [number_of_waves, twoThreads]
  refine ⟨fun t ht w hw => ?_, fun _ w hw => ?_⟩
  · obtain rfl : t = 0 := Nat.lt_one_iff.mp ht
    obtain rfl : w = 0 := Nat.lt_one_iff.mp (hwaves ▸ hw)
    exact hthreads
  · obtain rfl : w = 0 := Nat.lt_one_iff.mp (hwaves ▸ hw)
    exact hteams

/-- The largest value of 53 bits is exchanged and summed exactly. -/
theorem int64_reductions_exact_twoThreads : ∀ poison,
    Reduction64.sumL.ExactExchanges (twoThreads (2 ^ 53 - 1))
      ⟨fun _ _ => 9, fun _ => 9, fun _ _ => 9, fun _ => 0, fun _ => 7⟩ poison ∧
    Reduction64.sumL.ExactResult (twoThreads (2 ^ 53 - 1))
      ⟨fun _ _ => 9, fun _ => 9, fun _ _ => 9, fun _ => 0, fun _ => 7⟩ poison := by
  have hcall := twoThreads_oneCall (2 ^ 53 - 1)
    ⟨fun _ _ => 9, fun _ => 9, fun _ _ => 9, fun _ => 0, fun _ => 7⟩ rfl
  have hlanes : Reduction64.sumL.CallFits (twoThreads (2 ^ 53 - 1)) (LanesFit .sumL) :=
    callFits_twoThreads (lanesFit_two _ (by decide +kernel) (by decide +kernel))
      (lanesFit_two _ (by decide +kernel) (by decide +kernel))
  have hreceived : Reduction64.sumL.CallFits (twoThreads (2 ^ 53 - 1)) (ReceivedFit .sumL) :=
    callFits_twoThreads (receivedFit_two (by decide +kernel)) (receivedFit_two (by decide +kernel))
  obtain ⟨hexchanges, hresult⟩ := (int64_reductions_exact Reduction64.sumL).2.1 _ _ hcall
  exact fun poison => ⟨hexchanges.mpr hlanes poison, hresult hreceived poison⟩

theorem relay_large (ty : Int64Type) (poison : BitVec 64 → BitVec 64) :
    ty.relay poison (2 ^ 53 + 1) = 2 ^ 53 := by
  have htrunc : Binary64.truncate (ty.toDouble (2 ^ 53 + 1)) = some (2 ^ 53) := by
    cases ty <;> decide +kernel
  have hrange : ty.InRange (2 ^ 53) := by
    cases ty <;> decide
  unfold Int64Type.relay Int64Type.ofDouble
  rw [htrunc]
  simp only [hrange, if_true]
  decide

theorem twoThreads_rounded : ((runChecked
    (Reduction64.sumL.viaDouble (twoThreads (2 ^ 53 + 1)) id).step (fun _ _ => true)
    ((Reduction64.sumL.viaDouble (twoThreads (2 ^ 53 + 1)) id).init
      ⟨fun _ _ => 0, fun _ => 0, fun _ _ => 0, fun _ => 0, fun _ => 0⟩)
      (List.replicate 5 (.run 0 0) ++ [.release 0, .run 0 0, .run 0 0, .release 0] ++
        List.replicate 5 (.run 0 0) ++ [.release 0])).map fun s =>
          (decide (((s.teams 0).waves 0).pc = .done), s.r_ptr 0)) = some (true, 2 ^ 53) := by
  decide +kernel

/-- The exchange rounds `2 ^ 53 + 1`, and so do both reductions. -/
theorem int64_reductions_inexact :
    (∀ ty : Int64Type, ∀ poison,
      ty.shflXor poison 64 (fun lane => if lane = 1 then 2 ^ 53 + 1 else 0) 0 1 ≠ 2 ^ 53 + 1) ∧
    (∃ (m : Memory (BitVec 64)) (s : State (BitVec 64)),
      Reduction64.sumL.OneCall (twoThreads (2 ^ 53 + 1)) m ∧
      (Reduction64.sumL.viaDouble (twoThreads (2 ^ 53 + 1)) id).Reaches m s ∧
      (Reduction64.sumL.viaDouble (twoThreads (2 ^ 53 + 1)) id).Finished s ∧
      s.r_ptr 0 ≠ foldRange (· + ·) (m.r_ptr 0) ((twoThreads (2 ^ 53 + 1)).val 0) 2) ∧
    iteam_reduction (Reduction64.sumL.opsViaDouble id) 1 32
      (fun k => if k = 1 then 2 ^ 53 + 1 else 0) ≠
        foldRange (· + ·) 0 (fun k => if k = 1 then 2 ^ 53 + 1 else 0) 32 := by
  refine ⟨fun ty poison => ?_, ?_, by decide +kernel⟩
  · rw [Int64Type.shflXor_eq_relay]
    have hrelay := relay_large ty poison
    exact fun h => absurd (hrelay.symm.trans h) (by decide)
  · obtain ⟨s, hs, hend⟩ := Option.map_eq_some_iff.mp twoThreads_rounded
    obtain ⟨hpc, hr⟩ := Prod.mk.inj hend
    refine ⟨_, s, twoThreads_oneCall _ _ rfl, Reachable.of_runChecked (fun _ _ _ => trivial) _ _ hs,
      fun t ht w hw => ?_, ?_⟩
    · obtain rfl : t = 0 := Nat.lt_one_iff.mp ht
      obtain rfl : w = 0 := Nat.lt_one_iff.mp hw
      exact of_decide_eq_true hpc
    · rw [hr]
      decide +kernel

end Aomp.Xteam
