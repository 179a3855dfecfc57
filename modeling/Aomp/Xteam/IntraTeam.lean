import Aomp.Xteam.CrossTeam
import Aomp.Xteam.ExactCall
import Aomp.Xteam.IntraTeamRuns

/-!
# When an intra-team reduction is the fold

The tree of `_iteam_reduction` takes in all `_NW` slots of `xwave_lds`, those included that no
wave of the team writes. After each call the result is the fold of the thread values if and
only if these slots do not change it.
-/
namespace Aomp.Xteam.IntraTeam

open Foundations

variable {T : Type*}

namespace Launch

variable (L : Launch T)

/-- The fold of the thread values of a call. -/
def fold (c : ℕ) : T := foldRange L.ops.rf L.ops.rnv (L.val c) (L.waves * L.WSZ)

/-- How often call `c` takes in what slot `i` held before the first call: the one bits of `i`
above those of the waves are the trees that can move it on. -/
def timesTaken (c i : ℕ) : ℕ := Nat.multichoose (ones (i / L.waves)) c

/-- What the slots that no wave of the team writes bring into call `c`. -/
def unwritten (m : Memory T) (c : ℕ) : T :=
  foldRange L.ops.rf L.ops.rnv (fun j => foldRange L.ops.rf L.ops.rnv
    (fun _ => m.xwave_lds (L.waves + j)) (L.timesTaken c (L.waves + j))) (L.NW - L.waves)

/-- Every run ends with all threads returned, and after each call `*r_ptr` is the fold of the
thread values of that call. -/
structure FoldsCalls (m : Memory T) : Prop where
  terminates : L.Terminates m
  finished : ∀ s, L.Reaches m s → Stuck L.step s → L.Finished s
  result : ∀ s, L.Reaches m s → ∀ w < L.waves, ∀ c, (s.waves w).Returned c →
    s.result (L.r_ptr c) = L.fold c

section Lawful

variable {L} {m : Memory T} (hops : L.ops.Lawful)
include hops

theorem shuffle_eq_prod (c w : ℕ) : letI := hops.commMonoid
    L.shuffle (L.threadVals c w) = ∏ i ∈ Finset.range L.WSZ, L.val c (L.threadNum w i) := by
  let _ := hops.commMonoid
  obtain ⟨n, q, -, hq, -⟩ := L.shape
  have hexact : ExactRounds L.ops.rf (L.ops.shflXor (2 ^ q)) (2 ^ q) (halvings (2 ^ q / 2))
      (L.threadVals c w) := by
    refine exactRounds_of_forall (fun o ho v l hl => ?_) _
    have hle := le_of_mem_halvings ho
    have hpos : 0 < 2 ^ q := by positivity
    exact hops.exchange q v l hl o (by omega)
  have hprod := butterfly_eq_prod hops hexact
  unfold shuffle
  rw [hq]
  exact hprod

theorem prod_shuffles (c : ℕ) : letI := hops.commMonoid
    ∏ w ∈ Finset.range L.waves, L.shuffle (L.threadVals c w) = L.fold c := by
  let _ := hops.commMonoid
  have hfold := foldRange_eq_prod L.ops.rnv (L.val c) (L.waves * L.WSZ)
  have hblocks := prod_range_blocks (L.val c) L.waves L.WSZ
  calc _ = ∏ w ∈ Finset.range L.waves, ∏ i ∈ Finset.range L.WSZ, L.val c (w * L.WSZ + i) :=
        Finset.prod_congr rfl fun w _ => shuffle_eq_prod hops c w
    _ = _ := hblocks
    _ = _ := (one_mul _).symm.trans hfold.symm

theorem slots_succ (c : ℕ) : letI := hops.commMonoid
    L.slots m (c + 1) = roundSlots (· * ·) L.NW (L.filled c (L.slots m c)) 1 := by
  show roundSlots L.ops.rf_lds L.NW (L.filled c (L.slots m c)) 1 = _
  rw [hops.lds]
  rfl

theorem prod_slots (k c : ℕ) : letI := hops.commMonoid
    ∏ i ∈ Finset.range L.NW, L.slots m c i ^ slotWeight k (ones (i / L.waves)) =
      ∏ i ∈ Finset.range L.NW, m.xwave_lds i ^ slotWeight (k + c) (ones (i / L.waves)) := by
  let _ := hops.commMonoid
  obtain ⟨n, q, hn, -, -⟩ := L.shape
  obtain ⟨p, hp⟩ := L.waves_pow
  have hpn : p ≤ n := by
    have hle := L.waves_le
    rw [hp, hn] at hle
    exact (Nat.pow_le_pow_iff_right (by omega)).mp hle
  induction c generalizing k with
  | zero => rfl
  | succ c ih =>
    have htree := prod_roundSlots_weight k hpn (L.filled c (L.slots m c))
    rw [← hp, ← hn] at htree
    rw [slots_succ hops, htree, show k + (c + 1) = k + 1 + c from by ring, ← ih (k + 1)]
    apply Finset.prod_congr rfl
    intro i _
    by_cases hi : i < L.waves
    · rw [Nat.div_eq_of_lt hi, ones_zero, slotWeight_zero, pow_zero, pow_zero]
    · rw [filled, if_neg hi]

theorem prod_unwritten (c : ℕ) : letI := hops.commMonoid
    ∏ j ∈ Finset.range (L.NW - L.waves), L.slots m c (L.waves + j) = L.unwritten m c := by
  let _ := hops.commMonoid
  have hsplit : L.NW = L.waves + (L.NW - L.waves) := (Nat.add_sub_cancel' L.waves_le).symm
  have hlow : ∀ (k : ℕ) (f : ℕ → T),
      ∏ i ∈ Finset.range L.waves, f i ^ slotWeight k (ones (i / L.waves)) = 1 := by
    intro k f
    apply Finset.prod_eq_one
    intro i hi
    rw [Nat.div_eq_of_lt (Finset.mem_range.mp hi), ones_zero, slotWeight_zero, pow_zero]
  have hones : ∀ j, 0 < ones ((L.waves + j) / L.waves) := by
    intro j
    apply ones_pos
    exact Nat.div_pos (Nat.le_add_right _ _) L.waves_pos
  have hprod := prod_slots (m := m) hops 0 c
  rw [hsplit, Finset.prod_range_add, Finset.prod_range_add, hlow, hlow, one_mul, one_mul, Nat.zero_add]
    at hprod
  have hpow : ∀ (x : T) k, foldRange L.ops.rf L.ops.rnv (fun _ => x) k = x ^ k := by
    intro x k
    refine (foldRange_eq_prod L.ops.rnv (fun _ => x) k).trans ?_
    rw [Finset.prod_const, Finset.card_range]
    exact one_mul _
  unfold unwritten
  refine Eq.trans ?_ ((one_mul _).symm.trans (foldRange_eq_prod L.ops.rnv _ _).symm)
  calc _ = ∏ j ∈ Finset.range (L.NW - L.waves),
        L.slots m c (L.waves + j) ^ slotWeight 0 (ones ((L.waves + j) / L.waves)) :=
        Finset.prod_congr rfl fun j _ => by
          rw [slotWeight_of_pos (hones j), Nat.multichoose_zero_right, pow_one]
    _ = _ := hprod
    _ = _ := Finset.prod_congr rfl fun j _ => by rw [hpow, timesTaken, slotWeight_of_pos (hones j)]

/-- A call computes the fold of its thread values and of the slots that no wave writes. -/
theorem resultValue_eq (c : ℕ) : L.resultValue m c = L.ops.rf (L.fold c) (L.unwritten m c) := by
  let _ := hops.commMonoid
  obtain ⟨n, q, hn, -, -⟩ := L.shape
  have hsplit : L.NW = L.waves + (L.NW - L.waves) := (Nat.add_sub_cancel' L.waves_le).symm
  have hwaves : ∏ w ∈ Finset.range L.waves, L.filled c (L.slots m c) w = L.fold c := by
    rw [← prod_shuffles hops]
    exact Finset.prod_congr rfl fun w hw => if_pos (Finset.mem_range.mp hw)
  have hrest : ∏ j ∈ Finset.range (L.NW - L.waves), L.filled c (L.slots m c) (L.waves + j) =
      L.unwritten m c := by
    rw [← prod_unwritten hops]
    exact Finset.prod_congr rfl fun j _ => if_neg (by omega)
  have htree : L.resultValue m c = ∏ i ∈ Finset.range L.NW, L.filled c (L.slots m c) i := by
    unfold resultValue
    rw [hops.lds, hn]
    exact pairTree_one_zero
  rw [htree, hsplit, Finset.prod_range_add, hwaves, hrest]
  rfl

end Lawful

theorem resultValue_eq_iteam_reduction {L : Launch T} {m : Memory T} (hfull : L.waves = L.NW) (c : ℕ) :
    L.resultValue m c = iteam_reduction L.ops L.NW L.WSZ (L.val c) := by
  obtain ⟨n, q, hn, -, -⟩ := L.shape
  symm
  unfold iteam_reduction resultValue
  rw [hn]
  apply inPlace_eq_pairTree le_rfl
  intro w hw
  rw [pairTree_of_le le_rfl, filled, if_pos (by omega)]
  rfl

theorem foldsCalls_iff {L : Launch T} (hops : L.ops.Lawful) (m : Memory T) :
    L.FoldsCalls m ↔ ∀ c < L.calls, L.ops.rf (L.fold c) (L.unwritten m c) = L.fold c := by
  constructor
  · intro h c hc
    obtain ⟨s, hs, hret⟩ := exists_returned m hc
    rw [← resultValue_eq hops, ← Reaches.result_eq hs L.waves_pos hret]
    exact h.result s hs 0 L.waves_pos c hret
  · intro h
    refine ⟨terminates, fun s hs hstuck => ?_, fun s hs w hw c hret => ?_⟩
    · obtain ⟨ph, hinv⟩ := Reaches.inv hs
      exact hinv.finished_of_stuck hstuck
    · rw [Reaches.result_eq hs hw hret, resultValue_eq hops]
      exact h c (Reaches.returned_lt hs hw hret)

theorem foldRange_neutral {ops : Ops T} (hops : ops.Lawful) {f : ℕ → T} {n : ℕ}
    (h : ∀ i < n, f i = ops.rnv) : foldRange ops.rf ops.rnv f n = ops.rnv := by
  let _ := hops.commMonoid
  refine (foldRange_eq_prod ops.rnv f n).trans ((one_mul _).trans ?_)
  exact Finset.prod_eq_one fun i hi => h i (Finset.mem_range.mp hi)

theorem unwritten_of_neutral {L : Launch T} (hops : L.ops.Lawful) {m : Memory T}
    (h : ∀ i, L.waves ≤ i → i < L.NW → m.xwave_lds i = L.ops.rnv) (c : ℕ) :
    L.unwritten m c = L.ops.rnv := by
  apply foldRange_neutral hops
  intro j hj
  apply foldRange_neutral hops
  exact fun _ _ => h _ (Nat.le_add_right _ _) (by omega)

theorem unwritten_zero (L : Launch T) (m : Memory T) : L.unwritten m 0 = foldRange L.ops.rf L.ops.rnv
    (fun j => L.ops.rf L.ops.rnv (m.xwave_lds (L.waves + j))) (L.NW - L.waves) := by
  unfold unwritten timesTaken
  simp only [Nat.multichoose_zero_right]
  rfl

theorem foldsCalls_of_full {L : Launch T} (hops : L.ops.Lawful) (hfull : L.waves = L.NW) (m : Memory T) :
    L.FoldsCalls m := by
  apply (foldsCalls_iff hops m).mpr
  intro c _
  have hnone : L.unwritten m c = L.ops.rnv := by
    unfold unwritten
    rw [hfull, Nat.sub_self]
    rfl
  rw [hnone, hops.neutral]

end Launch

open Launch

/-- In every run of any number of calls `*r_ptr` is after each call the fold of its thread
values if and only if the team has all `_NW` waves, or no call is changed by the first contents
of the slots that no wave writes. -/
theorem intra_team_fold_iff (L : Launch T) (hops : L.ops.Lawful) (m : Memory T) :
    L.FoldsCalls m ↔
      L.waves = L.NW ∨ ∀ c < L.calls, L.ops.rf (L.fold c) (L.unwritten m c) = L.fold c := by
  constructor
  · exact fun h => .inr ((foldsCalls_iff hops m).mp h)
  · rintro (hfull | h)
    · exact foldsCalls_of_full hops hfull m
    · exact (foldsCalls_iff hops m).mpr h

/-- Two calls of 256 threads with `_NW = 16` and `_WSZ = 64`. -/
def fourWaves : Launch ℕ where
  ops := natSum
  NW := 16
  WSZ := 64
  waves := 4
  calls := 2
  val c k := c + k
  r_ptr := id
  instantiated := by decide
  waves_pow := ⟨2, rfl⟩
  waves_le := by decide

theorem intra_team_fold_iff_fourWaves : fourWaves.FoldsCalls ⟨fun _ => 0, fun _ => 7⟩ := by
  refine (intra_team_fold_iff fourWaves natSum_lawful _).mpr (.inr fun c _ => ?_)
  rw [unwritten_of_neutral natSum_lawful fun _ _ _ => rfl]
  exact natSum_lawful.neutral _

def staleSlot : Memory ℕ := ⟨fun i => if i = 4 then 1 else 0, fun _ => 7⟩

/-- The first call of four waves takes the slot in. -/
theorem fourWaves_stale : fourWaves.ops.Lawful ∧
    ∃ s, fourWaves.Reaches staleSlot s ∧ (s.waves 0).Returned 0 ∧
      s.result 0 = fourWaves.fold 0 + 1 := by
  obtain ⟨s, hs, hret⟩ := exists_returned (L := fourWaves) staleSlot (show 0 < 2 by decide)
  have hone : fourWaves.unwritten staleSlot 0 = 1 := by
    rw [unwritten_zero]
    decide
  refine ⟨natSum_lawful, s, hs, hret, (Reaches.result_eq hs fourWaves.waves_pos hret).trans ?_⟩
  rw [resultValue_eq natSum_lawful, hone]
  rfl

end Aomp.Xteam.IntraTeam
