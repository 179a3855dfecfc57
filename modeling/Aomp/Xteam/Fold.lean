import Aomp.Xteam.Progress

/-!
# The value of a call is the fold of its thread values

With an associative and commutative function, a neutral `rnv` and an exchange that delivers
the partner's value, the trees and the serial tail count each thread once. A finished run
therefore leaves the fold in every result.
-/
namespace Aomp.Xteam

open Foundations

variable {T : Type*} {K : Kernel T} {m : Memory T} {s : State T} {c t w : ℕ}

/-- The reduction functions compute one associative and commutative operation with the
neutral element `rnv`, and the exchange delivers the partner's value. -/
structure Ops.Lawful (ops : Ops T) : Prop where
  lds : ops.rf_lds = ops.rf
  assoc : ∀ a b c, ops.rf (ops.rf a b) c = ops.rf a (ops.rf b c)
  comm : ∀ a b, ops.rf a b = ops.rf b a
  neutral : ∀ a, ops.rf a ops.rnv = a
  exchange : ∀ p, ∀ v, ∀ self < 2 ^ p, ∀ mask < 2 ^ p,
    ops.shflXor (2 ^ p) v self mask = v (self ^^^ mask)

abbrev Ops.Lawful.commMonoid {ops : Ops T} (h : ops.Lawful) : CommMonoid T where
  mul := ops.rf
  one := ops.rnv
  mul_assoc := h.assoc
  mul_comm := h.comm
  one_mul a := (h.comm ops.rnv a).trans (h.neutral a)
  mul_one := h.neutral

theorem Ops.Lawful.pairTree_eq_fold {ops : Ops T} (h : ops.Lawful) (v : ℕ → T) {p j r : ℕ}
    (hj : j ≤ p) (hr : r < 2 ^ j) : pairTree ops.rf (2 ^ p) v (2 ^ j) r =
      foldRange ops.rf ops.rnv (fun i => v (r + 2 ^ j * i)) (2 ^ p / 2 ^ j) := by
  let _ := h.commMonoid
  have hsplit : 2 ^ p = 2 ^ j * 2 ^ (p - j) := by rw [← pow_add, Nat.add_sub_cancel' hj]
  have htree := pairTree_eq_prod (g := v) (m := p - j) hr
  have hfold := foldRange_eq_prod ops.rnv (fun i => v (r + 2 ^ j * i)) (2 ^ p / 2 ^ j)
  rw [← hsplit] at htree
  rw [Nat.pow_div hj (by omega)] at hfold ⊢
  exact htree.trans ((one_mul _).symm.trans hfold.symm)

theorem exactShflXor_eq (p : ℕ) (v : ℕ → T) {self mask : ℕ} (hs : self < 2 ^ p)
    (hm : mask < 2 ^ p) : exactShflXor (2 ^ p) v self mask = v (self ^^^ mask) := by
  rw [exactShflXor, shflIndex_eq hs hm]

namespace Kernel

theorem waveValue_eq_pairTree {p : ℕ} (hoff : K.start_offset = 2 ^ p / 2)
    (comm : ∀ a b, K.ops.rf a b = K.ops.rf b a) {v : ℕ → T}
    (hexact : ExactRounds K.ops.rf (K.ops.shflXor K.WSZ) (2 ^ p) (halvings (2 ^ p / 2)) v) :
    K.waveValue v = pairTree K.ops.rf (2 ^ p) v 1 0 := by
  unfold waveValue
  rw [hoff]
  refine butterfly_eq_pairTree comm le_rfl (fun l hl => ?_) hexact 0 (by positivity)
  rw [pairTree_of_le le_rfl, Nat.mod_eq_of_lt hl]

theorem exactRounds {p : ℕ} (hops : K.ops.Lawful) (hle : 2 ^ p ≤ K.WSZ) (v : ℕ → T) :
    ExactRounds K.ops.rf (K.ops.shflXor K.WSZ) (2 ^ p) (halvings (2 ^ p / 2)) v := by
  obtain ⟨q, hq, -⟩ := K.WSZ_pow
  refine exactRounds_of_forall (fun o ho v l hl => ?_) v
  have hlt := le_of_mem_halvings ho
  have hpos : 0 < 2 ^ p := by positivity
  rw [hq] at hle ⊢
  exact hops.exchange q v l (by omega) o (by omega)

section Lawful

variable (K) (hops : K.ops.Lawful)
include hops

/-- A tree over all waves takes in every thread of the block once. -/
theorem blockValue_eq (f : ℕ → T) : letI := hops.commMonoid
    pairTree K.ops.rf_lds K.number_of_waves
      (fun w => K.waveValue fun lane => f (K.threadNum w lane)) 1 0 =
        ∏ i ∈ Finset.range K.block_size, f i := by
  let _ := hops.commMonoid
  obtain ⟨n, p, hn, hbs, hle, hwaves, hoff⟩ := K.shape
  have hrf : K.ops.rf = (· * ·) := rfl
  have hwave : ∀ w < 2 ^ n, (K.waveValue fun lane => f (K.threadNum w lane)) =
      ∏ l ∈ Finset.range (2 ^ p), f (w * 2 ^ p + l) := by
    intro w hw
    rw [waveValue_eq_pairTree hoff hops.comm (exactRounds hops hle _), hrf, pairTree_one_zero]
    refine Finset.prod_congr rfl fun l _ => congrArg f ?_
    unfold threadNum
    rcases hwaves with rfl | hwsz
    · obtain rfl : w = 0 := by simpa using hw
      simp
    · rw [hwsz]
  rw [hops.lds, hrf, hn, pairTree_one_zero, hbs, ← prod_range_blocks]
  exact Finset.prod_congr rfl fun w hw => hwave w (Finset.mem_range.mp hw)

theorem teamValue_eq_prod (c t : ℕ) : letI := hops.commMonoid
    K.teamValue c t = ∏ i ∈ Finset.range K.block_size, K.val c (t * K.block_size + i) :=
  K.blockValue_eq hops fun i => K.val c (t * K.block_size + i)

theorem teamValue_eq_fold (c t : ℕ) : K.teamValue c t =
    foldRange K.ops.rf K.ops.rnv (fun i => K.val c (t * K.block_size + i)) K.block_size := by
  let _ := hops.commMonoid
  have hfold := foldRange_eq_prod K.ops.rnv (fun i => K.val c (t * K.block_size + i)) K.block_size
  rw [K.teamValue_eq_prod hops]
  exact (one_mul _).symm.trans hfold.symm

theorem allTeams_eq_prod (c : ℕ) : letI := hops.commMonoid
    ∏ t ∈ Finset.range K.NumTeams, K.teamValue c t =
      ∏ k ∈ Finset.range (K.NumTeams * K.block_size), K.val c k := by
  let _ := hops.commMonoid
  rw [← prod_range_blocks]
  exact Finset.prod_congr rfl fun t _ => K.teamValue_eq_prod hops c t

/-- The second round takes in the teams below the block size, the tail all others. -/
theorem tailValue_eq_prod (c : ℕ) (r : T) {off : ℕ} (hge : K.block_size ≤ off)
    (hle : off ≤ K.NumTeams) : letI := hops.commMonoid
    K.tailValue c r off = r * ∏ t ∈ Finset.range off, K.teamValue c t := by
  let _ := hops.commMonoid
  induction off, hge using Nat.le_induction with
  | base =>
    have hround := K.blockValue_eq hops fun i =>
      if i < K.NumTeams then K.teamValue c i else K.ops.rnv
    have hall : ∏ i ∈ Finset.range K.block_size,
        (if i < K.NumTeams then K.teamValue c i else K.ops.rnv) =
          ∏ i ∈ Finset.range K.block_size, K.teamValue c i :=
      Finset.prod_congr rfl fun i hi => if_pos ((Finset.mem_range.mp hi).trans_le hle)
    rw [K.tailValue_of_le le_rfl, hops.comm]
    exact congrArg (K.ops.rf r) (hround.trans hall)
  | succ off hge ih =>
    rw [K.tailValue_succ hge, ih (by omega), Finset.prod_range_succ, ← mul_assoc]
    rfl

theorem resultValue_eq_prod (c : ℕ) (r : T) : letI := hops.commMonoid
    K.resultValue c r = r * ∏ t ∈ Finset.range K.NumTeams, K.teamValue c t := by
  let _ := hops.commMonoid
  rcases Nat.le_total K.block_size K.NumTeams with hle | hle
  · exact K.tailValue_eq_prod hops c r hle le_rfl
  · have hround := K.blockValue_eq hops fun i =>
      if i < K.NumTeams then K.teamValue c i else K.ops.rnv
    have hall : ∏ i ∈ Finset.range K.block_size,
        (if i < K.NumTeams then K.teamValue c i else K.ops.rnv) =
          ∏ i ∈ Finset.range K.NumTeams, K.teamValue c i := by
      have hsub := Finset.prod_subset (Finset.range_subset_range.mpr hle)
        (f := fun i => if i < K.NumTeams then K.teamValue c i else K.ops.rnv)
        fun i _ hi => if_neg (by simpa using hi)
      exact hsub.symm.trans (Finset.prod_congr rfl fun i hi => if_pos (Finset.mem_range.mp hi))
    rw [resultValue, K.tailValue_of_le hle, hops.comm]
    exact congrArg (K.ops.rf r) (hround.trans hall)

theorem resultValue_eq_fold (c : ℕ) (r : T) : K.resultValue c r =
    foldRange K.ops.rf r (K.val c) (K.NumTeams * K.block_size) := by
  let _ := hops.commMonoid
  rw [K.resultValue_eq_prod hops, K.allTeams_eq_prod hops]
  exact (foldRange_eq_prod r (K.val c) _).symm

/-- So does a fast call, in whatever order the teams add their values. -/
theorem added_eq_fold (hadd : K.ops.add = K.ops.rf) (c : ℕ) (r : T) {arrived : List ℕ}
    (hperm : arrived.Perm (List.range K.NumTeams)) :
    arrived.foldl (fun a t => K.ops.add a (K.teamValue c t)) r =
      foldRange K.ops.rf r (K.val c) (K.NumTeams * K.block_size) := by
  let _ := hops.commMonoid
  have hsum : ∀ (l : List ℕ) (r : T), l.foldl (fun a t => a * K.teamValue c t) r =
      r * (l.map (K.teamValue c)).prod := by
    intro l
    induction l with
    | nil => simp
    | cons t l ih =>
      intro r
      rw [List.foldl_cons, ih, List.map_cons, List.prod_cons, mul_assoc]
  have hrange : ((List.range K.NumTeams).map (K.teamValue c)).prod =
      ∏ t ∈ Finset.range K.NumTeams, K.teamValue c t := by
    rw [← List.prod_toFinset _ List.nodup_range, List.toFinset_range]
  rw [hadd]
  apply (hsum arrived r).trans
  rw [(hperm.map _).prod_eq, hrange, K.allTeams_eq_prod hops]
  exact (foldRange_eq_prod r (K.val c) _).symm

end Lawful

theorem Inv.reached_of_finished (h : K.Inv m s) (hfin : K.Finished s) (ht : t < K.NumTeams)
    (hc : c < K.calls) (pc : Pc) : (s.leader t).Reached pc c := by
  obtain ⟨ph, hteam⟩ := h.team t ht
  have hwave := hteam.wave 0 K.number_of_waves_pos
  simp only [WaveInv, hfin t ht 0 K.number_of_waves_pos] at hwave
  exact .inl (by rw [State.leader, hwave.2.1]; exact hc)

theorem Inv.arrived_perm (h : K.Inv m s) (hfin : K.Finished s) (hc : c < K.calls) :
    (s.arrived c).Perm (List.range K.NumTeams) := by
  apply (List.perm_ext_iff_of_nodup (h.nodup c) List.nodup_range).mpr
  intro t
  rw [h.mem_arrived, List.mem_range]
  exact and_iff_left_of_imp fun ht => h.reached_of_finished hfin ht hc _

theorem Inv.finished_plain (h : K.Inv m s) (hfin : K.Finished s) (hslow : K.IS_FAST = false)
    (hc : c < K.calls) : s.r_ptr c = K.resultValue c (m.r_ptr c) ∧ (∃ t, s.writers c = [t]) ∧
      s.teams_done (K.td c) = 0 := by
  have hpos := K.teams_pos
  have hlen : (s.arrived c).length = K.NumTeams := by
    rw [(h.arrived_perm hfin hc).length_eq, List.length_range]
  have hlt : K.NumTeams - 1 < (s.arrived c).length := by omega
  have hlast : K.LastTeam s.arrived c (s.arrived c)[K.NumTeams - 1] := List.getElem?_eq_getElem hlt
  have ht := ((h.mem_arrived c _).mp (List.getElem_mem hlt)).1
  obtain ⟨hr, hw⟩ := h.written hslow c hc ⟨_, hlast, h.reached_of_finished hfin ht hc _⟩
  refine ⟨hr, hw, ?_⟩
  rw [h.teams_done hslow c hc, if_pos hlen]

theorem exists_finished (hK : K.Undisturbed m) : ∃ s, K.Reaches m s ∧ Stuck K.step s :=
  Reachable.exists_stuck K.measure (P := K.Inv m) (fun _ _ => trivial)
    (fun _ _ _ hinv hstep => ⟨hinv.step hK hstep, step_measure hinv hstep⟩) (Inv.init hK)

end Kernel

end Aomp.Xteam
