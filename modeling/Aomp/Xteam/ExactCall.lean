import Aomp.Xteam.Fold

/-!
# Calls with exact exchanges

Whether the lane exchange of a kernel is exact on the values that a call shuffles, and what
the call then computes: what it computes with an exchange that is always exact.
-/
namespace Aomp.Xteam

open Foundations

variable {T : Type*}

namespace Kernel

def lanesPerWave (K : Kernel T) : ℕ := min K.block_size K.WSZ

theorem lanesPerWave_spec (K : Kernel T) : ∃ p, K.lanesPerWave = 2 ^ p ∧ 2 ^ p ≤ K.WSZ ∧
    K.start_offset = 2 ^ p / 2 := by
  obtain ⟨n, p, -, hbs, hle, hwaves, hoff⟩ := K.shape
  refine ⟨p, ?_, hle, hoff⟩
  unfold lanesPerWave
  rcases hwaves with rfl | hwsz
  · rw [hbs, pow_zero, one_mul]
    exact min_eq_left hle
  · rw [hwsz, hbs]
    exact min_eq_right (Nat.le_mul_of_pos_left _ (by positivity))

def ExactWave (K : Kernel T) (v : ℕ → T) : Prop :=
  ExactRounds K.ops.rf (K.ops.shflXor K.WSZ) K.lanesPerWave (halvings K.start_offset) v

/-- Every exchange that the first call makes is exact. A fast call has no second round. -/
structure ExactCall (K : Kernel T) : Prop where
  threads : ∀ t < K.NumTeams, ∀ w < K.number_of_waves, K.ExactWave (K.laneVals .threads 0 t w)
  teams : K.IS_FAST = false → ∀ w < K.number_of_waves, K.ExactWave (K.laneVals .teams 0 0 w)

/-- In a run of one call the waves shuffle the values of `ExactCall` and no others. -/
theorem ExactCall.of_reaches {K : Kernel T} {m : Memory T} {s : State T} (h : K.ExactCall)
    (hone : K.calls = 1) (hK : K.Undisturbed m) (hs : K.Reaches m s) {t w : ℕ} {r : Round}
    (ht : t < K.NumTeams) (hw : w < K.number_of_waves)
    (hpc : ((s.teams t).waves w).pc = .work r) : K.ExactWave ((s.teams t).waves w).val := by
  obtain ⟨ph, hteam⟩ := (Reaches.inv hK hs).team t ht
  have hwave := hteam.wave w hw
  simp only [WaveInv, hpc] at hwave
  obtain ⟨hcall, hph, hval⟩ := hwave
  have hzero : ((s.teams t).waves w).call = 0 := by
    have := hcall (by simp)
    omega
  rw [hval, hzero]
  cases r with
  | threads => exact h.threads t ht w hw
  | teams =>
    have hphase := hteam.phase
    rw [hph] at hphase
    exact h.teams (hphase.2.2 rfl).1 w hw

theorem ExactWave.waveValue_eq {K : Kernel T} {v : ℕ → T} (comm : ∀ a b, K.ops.rf a b = K.ops.rf b a)
    (h : K.ExactWave v) : K.waveValue v = pairTree K.ops.rf K.lanesPerWave v 1 0 := by
  obtain ⟨p, hlanes, -, hoff⟩ := K.lanesPerWave_spec
  unfold ExactWave at h
  rw [hlanes, hoff] at h
  rw [hlanes, waveValue_eq_pairTree hoff comm h]

theorem exactWave_of_lawful {K : Kernel T} (hops : K.ops.Lawful) (v : ℕ → T) : K.ExactWave v := by
  obtain ⟨p, hlanes, hle, hoff⟩ := K.lanesPerWave_spec
  unfold ExactWave
  rw [hlanes, hoff]
  exact exactRounds hops hle v

def withExchange (K : Kernel T) (x : ℕ → (ℕ → T) → ℕ → ℕ → T) : Kernel T :=
  { K with ops := { K.ops with shflXor := x } }

theorem Undisturbed.withExchange {K : Kernel T} {m : Memory T} (h : K.Undisturbed m)
    (x : ℕ → (ℕ → T) → ℕ → ℕ → T) : (K.withExchange x).Undisturbed m :=
  ⟨h.tvs, h.td, h.teams_done, h.fast⟩

theorem waves_congr (K : Kernel T) {f g : ℕ → T} (h : ∀ w < K.number_of_waves, f w = g w) :
    pairTree K.ops.rf_lds K.number_of_waves f 1 0 =
      pairTree K.ops.rf_lds K.number_of_waves g 1 0 := by
  obtain ⟨n, hn⟩ := K.number_of_waves_pow
  have hwidth : K.number_of_waves = 1 * 2 ^ n := by rw [hn, one_mul]
  rw [hwidth] at h ⊢
  exact pairTree_congr h one_pos

/-- The other exchange leaves the same value in lane 0 of a wave. -/
def SameWave (K : Kernel T) (x : ℕ → (ℕ → T) → ℕ → ℕ → T) (v : ℕ → T) : Prop :=
  (K.withExchange x).waveValue v = K.waveValue v

section WithExchange

variable {K : Kernel T} {x : ℕ → (ℕ → T) → ℕ → ℕ → T} {t : ℕ}

theorem ExactWave.sameWave (hops : K.ops.Lawful) {v : ℕ → T} (h : (K.withExchange x).ExactWave v) :
    K.SameWave x v :=
  (ExactWave.waveValue_eq (K := K.withExchange x) hops.comm h).trans
    ((exactWave_of_lawful hops v).waveValue_eq hops.comm).symm

theorem withExchange_teamValue (h : ∀ w < K.number_of_waves, K.SameWave x (K.laneVals .threads 0 t w)) :
    (K.withExchange x).teamValue 0 t = K.teamValue 0 t :=
  K.waves_congr h

variable (h : ∀ t < K.NumTeams, ∀ w < K.number_of_waves, K.SameWave x (K.laneVals .threads 0 t w))
include h

/-- With the same values in the first round both kernels start the second round alike. -/
theorem withExchange_teamVals (w : ℕ) :
    (K.withExchange x).laneVals .teams 0 0 w = K.laneVals .teams 0 0 w := by
  funext lane
  show (if K.threadNum w lane < K.NumTeams then
    (K.withExchange x).teamValue 0 (K.threadNum w lane) else K.ops.rnv) = _
  dsimp only [laneVals]
  split_ifs with hlt
  · exact withExchange_teamValue (h _ hlt)
  · rfl

theorem withExchange_foldl (f : T → T → T) (l : List ℕ) (hl : ∀ i ∈ l, i < K.NumTeams) :
    ∀ a, l.foldl (fun a i => f a ((K.withExchange x).teamValue 0 i)) a =
      l.foldl (fun a i => f a (K.teamValue 0 i)) a := by
  induction l with
  | nil => exact fun _ => rfl
  | cons i l ih =>
    intro a
    rw [List.foldl_cons, List.foldl_cons, withExchange_teamValue (h i (hl i List.mem_cons_self))]
    exact ih (fun j hj => hl j (List.mem_cons_of_mem _ hj)) _

theorem withExchange_resultValue
    (h' : ∀ w < K.number_of_waves, K.SameWave x (K.laneVals .teams 0 0 w)) (r : T) :
    (K.withExchange x).resultValue 0 r = K.resultValue 0 r := by
  have hround : (K.withExchange x).ldsValue .teams 0 0 1 0 = K.ldsValue .teams 0 0 1 0 := by
    apply K.waves_congr
    intro w hw
    rw [withExchange_teamVals h]
    exact h' w hw
  unfold resultValue tailValue
  rw [hround]
  exact withExchange_foldl h _ _ (fun i hi => List.mem_range.mp (List.mem_of_mem_drop hi)) _

end WithExchange

end Kernel

/-- `_iteam_reduction`: the result that thread 0 stores. The tree over `xwave_lds` runs in the
first wave between two barriers. -/
def iteam_reduction (ops : Ops T) (NW WSZ : ℕ) (val : ℕ → T) : T :=
  let xwave_lds wave_num := butterfly ops.rf (ops.shflXor WSZ) (WSZ / 2)
    (fun lane_num => val (wave_num * WSZ + lane_num)) 0
  inPlace ops.rf_lds (NW / 2) xwave_lds 0

theorem butterfly_eq_prod {ops : Ops T} (hops : ops.Lawful) {exchange : (ℕ → T) → ℕ → ℕ → T} {p : ℕ}
    {v : ℕ → T} (h : ExactRounds ops.rf exchange (2 ^ p) (halvings (2 ^ p / 2)) v) :
    letI := hops.commMonoid
    butterfly ops.rf exchange (2 ^ p / 2) v 0 = ∏ i ∈ Finset.range (2 ^ p), v i := by
  let _ := hops.commMonoid
  have hlanes : ∀ l < 2 ^ p, v l = pairTree ops.rf (2 ^ p) v (2 ^ p) (l % 2 ^ p) := by
    intro l hl
    rw [pairTree_of_le le_rfl, Nat.mod_eq_of_lt hl]
  have htree := butterfly_eq_pairTree hops.comm le_rfl hlanes h 0 (by positivity)
  exact htree.trans pairTree_one_zero

/-- When lane 0 of every wave ends with all values of the wave, the result is the fold of all
thread values. -/
theorem iteam_reduction_eq {ops : Ops T} (hops : ops.Lawful) {x : ℕ → (ℕ → T) → ℕ → ℕ → T}
    {n p : ℕ} {val : ℕ → T} (h : ∀ w < 2 ^ n, butterfly ops.rf (x (2 ^ p)) (2 ^ p / 2)
      (fun lane => val (w * 2 ^ p + lane)) 0 =
        pairTree ops.rf (2 ^ p) (fun lane => val (w * 2 ^ p + lane)) 1 0) :
    iteam_reduction { ops with shflXor := x } (2 ^ n) (2 ^ p) val =
      foldRange ops.rf ops.rnv val (2 ^ n * 2 ^ p) := by
  let _ := hops.commMonoid
  have htree : iteam_reduction { ops with shflXor := x } (2 ^ n) (2 ^ p) val =
      pairTree ops.rf (2 ^ n) (fun w => ∏ i ∈ Finset.range (2 ^ p), val (w * 2 ^ p + i)) 1 0 := by
    unfold iteam_reduction
    rw [hops.lds]
    apply inPlace_eq_pairTree le_rfl
    intro w hw
    rw [pairTree_of_le le_rfl]
    exact (h w hw).trans pairTree_one_zero
  have hfold := foldRange_eq_prod ops.rnv val (2 ^ n * 2 ^ p)
  rw [htree]
  refine pairTree_one_zero.trans ((prod_range_blocks val _ _).trans ?_)
  exact (one_mul _).symm.trans hfold.symm

end Aomp.Xteam
