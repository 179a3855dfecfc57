import Mathlib.Algebra.Order.BigOperators.Group.Finset
import Aomp.Xteam.IntraTeamMachine

/-!
# The runs of `_iteam_reduction`

Between two barriers a team either fills `xwave_lds` or runs the tree over it. The invariant
gives all of `xwave_lds` in both phases, whatever the reduction functions and the exchange do,
and every step brings a wave closer to the end of its last call.
-/
namespace Aomp.Xteam.IntraTeam

open Foundations

variable {T : Type*} {L : Launch T} {m : Memory T} {s s' : State T} {v : Wave T} {w c off : ℕ}

/-- Where a team stands: before the first barrier of a call (or after the last call), or
between its two barriers. -/
inductive Phase
  | fill (c : ℕ)
  | tree (c : ℕ)

def Pc.level : Pc → ℕ
  | .own off | .other off | .put off => 2 * off
  | _ => 1

namespace Launch

variable (L)

/-- `xwave_lds` in the tree of call `c` after the rounds down to `off`. -/
def treeSlots (m : Memory T) (c off : ℕ) : ℕ → T :=
  roundSlots L.ops.rf_lds L.NW (L.filled c (L.slots m c)) off

def IsRound (off : ℕ) : Prop := ∃ j, off = 2 ^ j ∧ off < L.NW

/-- What a wave knows at its program counter. -/
def WaveInv (m : Memory T) (result : ℕ → T) (ph : Phase) (w : ℕ) (v : Wave T) : Prop :=
  match v.pc with
  | .work => ph = .fill v.call ∧ v.call < L.calls ∧ v.val = L.threadVals v.call w
  | .sync => ph = .fill v.call ∧ v.call < L.calls
  | .own off => ph = .tree v.call ∧ L.IsRound off
  | .other off => ph = .tree v.call ∧ L.IsRound off ∧ ∀ l < L.WSZ, L.threadNum w l < off →
      v.own l = L.treeSlots m v.call (2 * off) (L.threadNum w l)
  | .put off => ph = .tree v.call ∧ L.IsRound off ∧ ∀ l < L.WSZ, L.threadNum w l < off →
      v.own l = L.treeSlots m v.call (2 * off) (L.threadNum w l) ∧
      v.other l = L.treeSlots m v.call (2 * off) (L.threadNum w l + off)
  | .load => ph = .tree v.call ∧ w = 0
  | .write => ph = .tree v.call ∧ w = 0 ∧ v.acc = L.resultValue m v.call
  | .endSync => ph = .tree v.call ∧
      (w = 0 → result (L.r_ptr v.call) = L.resultValue m v.call)
  | .done => ph = .fill v.call ∧ v.call = L.calls

def SharedInv (m : Memory T) (s : State T) : Phase → Prop
  | .fill c => (∀ i, s.xwave_lds i = if i < L.waves ∧ (s.waves i).pc = .sync then
      L.shuffle (L.threadVals c i) else L.slots m c i) ∧
      ∀ d, c = d + 1 → s.result (L.r_ptr d) = L.resultValue m d
  | .tree c => c < L.calls ∧ s.xwave_lds = L.treeSlots m c (s.waves 0).pc.level

structure Inv (m : Memory T) (s : State T) (ph : Phase) : Prop where
  wave : ∀ w < L.waves, L.WaveInv m s.result ph w (s.waves w)
  shared : L.SharedInv m s ph

variable {L}

theorem IsRound.le (h : L.IsRound off) : off ≤ L.WSZ := by
  obtain ⟨n, q, hn, -, hle⟩ := L.shape
  obtain ⟨j, rfl, hlt⟩ := h
  have hpow : 2 ^ j ≤ 2 ^ n / 2 := by
    rw [hn] at hlt
    have hjn : j + 1 ≤ n := (Nat.pow_lt_pow_iff_right (by omega)).mp hlt
    have := Nat.pow_le_pow_right (n := 2) (by omega) hjn
    omega
  rw [← hn] at hpow
  exact hpow.trans hle

theorem IsRound.first_wave {l : ℕ} (h : L.IsRound off) (hl : L.threadNum w l < off) : w = 0 := by
  have hle := h.le
  by_contra hw
  have := Nat.le_mul_of_pos_left L.WSZ (Nat.pos_of_ne_zero hw)
  unfold threadNum at hl
  omega

theorem level_nextRound {j : ℕ} (hoff : off = 2 ^ j) : (v.nextRound 0 off).pc.level = off := by
  unfold Wave.nextRound
  cases j with
  | zero =>
    rw [hoff]
    rfl
  | succ j =>
    have hhalf : off / 2 = 2 ^ j := by omega
    rw [hhalf, if_pos (by positivity)]
    simp only [Pc.level]
    omega

theorem WaveInv.nextRound {j : ℕ} {result : ℕ → T} (hoff : off = 2 ^ j) (hle : off ≤ L.NW) :
    L.WaveInv m result (.tree v.call) w (v.nextRound w off) := by
  unfold Wave.nextRound
  split_ifs with hhalf hw
  · cases j with
    | zero => simp [hoff] at hhalf
    | succ j => exact ⟨rfl, j, by omega, by omega⟩
  · exact ⟨rfl, hw⟩
  · exact ⟨rfl, fun h => absurd h hw⟩

theorem putSlots_first (h : L.IsRound off)
    (hv : ∀ l < L.WSZ, L.threadNum 0 l < off →
      v.own l = L.treeSlots m c (2 * off) (L.threadNum 0 l) ∧
      v.other l = L.treeSlots m c (2 * off) (L.threadNum 0 l + off)) :
    L.putSlots 0 off v (L.treeSlots m c (2 * off)) = L.treeSlots m c off := by
  have hle := h.le
  obtain ⟨n, q, hn, -, -⟩ := L.shape
  obtain ⟨j, rfl, hlt⟩ := h
  rw [hn] at hlt
  have hround : inPlaceRound L.ops.rf_lds (2 ^ j) (L.treeSlots m c (2 * 2 ^ j)) =
      L.treeSlots m c (2 ^ j) := by
    unfold treeSlots
    rw [hn]
    exact inPlaceRound_roundSlots ((Nat.pow_lt_pow_iff_right (by omega)).mp hlt)
  rw [← hround]
  funext i
  unfold putSlots inPlaceRound
  by_cases hi : i < 2 ^ j
  · have hnum : L.threadNum 0 i = i := by simp [threadNum]
    obtain ⟨hown, hother⟩ := hv i (by omega) (hnum.symm ▸ hi)
    rw [if_pos ⟨hi, Nat.div_eq_of_lt (by omega)⟩, if_pos hi, Nat.mod_eq_of_lt (by omega), hown, hother,
      hnum]
  · rw [if_neg fun hand => hi hand.1, if_neg hi]

theorem putSlots_other (h : L.IsRound off) (hw : w ≠ 0) (slots : ℕ → T) :
    L.putSlots w off v slots = slots := by
  have hle := h.le
  funext i
  unfold putSlots
  refine if_neg fun ⟨hi, hdiv⟩ => hw ?_
  rw [← hdiv, Nat.div_eq_of_lt (by omega)]

theorem WaveInv.frame {result result' : ℕ → T} {ph : Phase} (h : L.WaveInv m result ph w v)
    (hresult : w = 0 → result' = result) : L.WaveInv m result' ph w v := by
  unfold WaveInv at h ⊢
  cases hpc : v.pc <;> simp only [hpc] at h ⊢
  case endSync =>
    refine ⟨h.1, fun hw => ?_⟩
    rw [hresult hw]
    exact h.2 hw
  all_goals exact h

theorem Inv.setWave {ph : Phase} {v' : Wave T} {lds result : ℕ → T} (h : L.Inv m s ph)
    (hw : L.WaveInv m result ph w v') (hresult : w ≠ 0 → result = s.result)
    (hshared : L.SharedInv m ⟨Function.update s.waves w v', lds, result⟩ ph) :
    L.Inv m ⟨Function.update s.waves w v', lds, result⟩ ph := by
  refine ⟨fun u hu => ?_, hshared⟩
  dsimp only
  by_cases huw : u = w
  · rw [huw, Function.update_self]
    exact hw
  · rw [Function.update_of_ne huw]
    exact (h.wave u hu).frame fun hzero => hresult (hzero ▸ Ne.symm huw)

theorem SharedInv.tree_setWave {v' : Wave T} {result : ℕ → T} (h : L.SharedInv m s (.tree c))
    (hlevel : w = 0 → v'.pc.level = (s.waves 0).pc.level) :
    L.SharedInv m ⟨Function.update s.waves w v', s.xwave_lds, result⟩ (.tree c) := by
  refine ⟨h.1, h.2.trans ?_⟩
  dsimp only
  by_cases hw : w = 0
  · rw [hw, Function.update_self, hlevel hw]
  · rw [Function.update_of_ne (Ne.symm hw)]

theorem SharedInv.lds_eq {i l : ℕ} (h : L.SharedInv m s (.tree c)) (hoff : L.IsRound off)
    (hlevel : (s.waves w).pc.level = 2 * off) (hl : L.threadNum w l < off) :
    s.xwave_lds i = L.treeSlots m c (2 * off) i := by
  have hw := hoff.first_wave hl
  subst hw
  rw [h.2, hlevel]

theorem Inv.work (h : L.Inv m s (.fill c)) (hw : w < L.waves) (hpc : (s.waves w).pc = .work) :
    L.Inv m { s.setWave w { s.waves w with pc := .sync } with
      xwave_lds := Function.update s.xwave_lds w (L.shuffle (s.waves w).val) } (.fill c) := by
  have hwave := h.wave w hw
  simp only [WaveInv, hpc] at hwave
  obtain ⟨hph, hcall, hval⟩ := hwave
  have hc : c = (s.waves w).call := Phase.fill.inj hph
  refine h.setWave ⟨hph, hcall⟩ (fun _ => rfl) ⟨fun i => ?_, h.shared.2⟩
  dsimp only
  by_cases hi : i = w
  · subst hi
    simp only [Function.update_self, hw, and_self, if_true]
    rw [hval, hc]
  · simp only [Function.update_of_ne hi]
    exact h.shared.1 i

/-- A step of one wave keeps the phase of the team. -/
theorem Inv.run {ph : Phase} (h : L.Inv m s ph) (hw : w < L.waves) (hstep : L.runWave w s = some s') :
    L.Inv m s' ph := by
  have hwave := h.wave w hw
  unfold runWave at hstep
  cases hpc : (s.waves w).pc <;> simp only [hpc] at hstep <;> simp only [WaveInv, hpc] at hwave
  case work =>
    obtain rfl := Option.some.inj hstep
    obtain rfl := hwave.1
    exact h.work hw hpc
  case own off =>
    obtain rfl := Option.some.inj hstep
    obtain ⟨rfl, hoff⟩ := hwave
    refine h.setWave ⟨rfl, hoff, fun l _ hl => ?_⟩ (fun _ => rfl) (h.shared.tree_setWave ?_)
    · exact h.shared.lds_eq hoff (by rw [hpc]; rfl) hl
    · rintro rfl
      rw [hpc]
      rfl
  case other off =>
    obtain rfl := Option.some.inj hstep
    obtain ⟨rfl, hoff, hown⟩ := hwave
    refine h.setWave ⟨rfl, hoff, fun l hlt hl => ⟨hown l hlt hl, ?_⟩⟩ (fun _ => rfl)
      (h.shared.tree_setWave ?_)
    · exact h.shared.lds_eq hoff (by rw [hpc]; rfl) hl
    · rintro rfl
      rw [hpc]
      rfl
  case put off =>
    obtain rfl := Option.some.inj hstep
    obtain ⟨rfl, hoff, hregs⟩ := hwave
    obtain ⟨j, hj, hlt⟩ := id hoff
    refine h.setWave (WaveInv.nextRound hj hlt.le) (fun _ => rfl) ⟨h.shared.1, ?_⟩
    dsimp only
    by_cases hzero : w = 0
    · subst hzero
      have hlds : s.xwave_lds = L.treeSlots m (s.waves 0).call (2 * off) := by
        rw [h.shared.2, hpc]
        rfl
      rw [Function.update_self, level_nextRound hj, hlds, putSlots_first hoff hregs]
    · rw [Function.update_of_ne (Ne.symm hzero), putSlots_other hoff hzero]
      exact h.shared.2
  case load =>
    obtain rfl := Option.some.inj hstep
    obtain ⟨rfl, rfl⟩ := hwave
    refine h.setWave ⟨rfl, rfl, ?_⟩ (fun _ => rfl) (h.shared.tree_setWave ?_)
    · dsimp only
      rw [h.shared.2, hpc]
      rfl
    · rw [hpc]
      exact fun _ => rfl
  case write =>
    obtain rfl := Option.some.inj hstep
    obtain ⟨rfl, rfl, hacc⟩ := hwave
    refine h.setWave ⟨rfl, fun _ => ?_⟩ (fun hne => absurd rfl hne) (h.shared.tree_setWave ?_)
    · dsimp only
      rw [Function.update_self, hacc]
    · rw [hpc]
      exact fun _ => rfl
  all_goals exact absurd hstep (by simp)

/-- The first barrier of a call: all waves have filled their slots. -/
theorem Inv.release_fill (h : L.Inv m s (.fill c))
    (hwait : ∀ w < L.waves, (s.waves w).pc.waiting = true) :
    L.Inv m { s with waves := fun w => L.pass w (s.waves w) } (.tree c) := by
  obtain ⟨n, q, hn, -, -⟩ := L.shape
  have hsync : ∀ w < L.waves, (s.waves w).pc = .sync ∧ (s.waves w).call = c ∧ c < L.calls := by
    intro w hw
    have hwave := h.wave w hw
    have hpc := hwait w hw
    cases hw' : (s.waves w).pc <;> simp only [hw', Pc.waiting, Bool.false_eq_true] at hpc <;>
      simp only [WaveInv, hw'] at hwave
    · obtain ⟨hph, hcall⟩ := hwave
      obtain rfl := Phase.fill.inj hph
      exact ⟨rfl, rfl, hcall⟩
    · simp at hwave
  obtain ⟨hfirst, -, hcall⟩ := hsync 0 L.waves_pos
  refine ⟨fun w hw => ?_, hcall, ?_⟩
  · obtain ⟨hpc, rfl, -⟩ := hsync w hw
    simp only [pass, hpc]
    exact WaveInv.nextRound hn le_rfl
  · have hlevel : (L.pass 0 (s.waves 0)).pc.level = L.NW := by
      simp only [pass, hfirst]
      exact level_nextRound hn
    funext i
    dsimp only
    rw [hlevel, treeSlots, roundSlots_of_le le_rfl, filled, h.shared.1 i]
    by_cases hi : i < L.waves
    · rw [if_pos ⟨hi, (hsync i hi).1⟩, if_pos hi]
    · rw [if_neg fun hand => hi hand.1, if_neg hi]

/-- The second barrier of a call: thread 0 has stored the result. -/
theorem Inv.release_tree (h : L.Inv m s (.tree c))
    (hwait : ∀ w < L.waves, (s.waves w).pc.waiting = true) :
    L.Inv m { s with waves := fun w => L.pass w (s.waves w) } (.fill (c + 1)) := by
  have hend : ∀ w < L.waves, (s.waves w).pc = .endSync ∧ (s.waves w).call = c ∧
      (w = 0 → s.result (L.r_ptr c) = L.resultValue m c) := by
    intro w hw
    have hwave := h.wave w hw
    have hpc := hwait w hw
    cases hw' : (s.waves w).pc <;> simp only [hw', Pc.waiting, Bool.false_eq_true] at hpc <;>
      simp only [WaveInv, hw'] at hwave
    · simp at hwave
    · obtain ⟨hph, hresult⟩ := hwave
      obtain rfl := Phase.tree.inj hph
      exact ⟨rfl, rfl, hresult⟩
  obtain ⟨hfirst, -, hresult⟩ := hend 0 L.waves_pos
  have hlt := h.shared.1
  refine ⟨fun w hw => ?_, fun i => ?_, fun d hd => ?_⟩
  · obtain ⟨hpc, rfl, -⟩ := hend w hw
    simp only [pass, hpc, enter]
    split_ifs with hmore
    · exact ⟨rfl, hmore, rfl⟩
    · exact ⟨rfl, by dsimp only; omega⟩
  · have hnot : ¬ (i < L.waves ∧ (L.pass i (s.waves i)).pc = .sync) := by
      rintro ⟨hi, hpc⟩
      simp only [pass, (hend i hi).1, enter] at hpc
      split_ifs at hpc
    dsimp only
    rw [if_neg hnot, h.shared.2, hfirst]
    rfl
  · obtain rfl : c = d := by omega
    exact hresult rfl

theorem Inv.step {ph : Phase} {a : Action} (h : L.Inv m s ph) (hstep : L.step s a = some s') :
    ∃ ph', L.Inv m s' ph' := by
  cases a with
  | run w =>
    simp only [Launch.step] at hstep
    split_ifs at hstep with hw
    exact ⟨ph, h.run hw hstep⟩
  | release =>
    simp only [Launch.step] at hstep
    split_ifs at hstep with hwait
    obtain rfl := Option.some.inj hstep
    cases ph with
    | fill c => exact ⟨_, h.release_fill hwait⟩
    | tree c => exact ⟨_, h.release_tree hwait⟩

theorem Inv.init : L.Inv m (L.init m) (.fill 0) := by
  refine ⟨fun w _ => ?_, fun i => ?_, fun d hd => by omega⟩
  · simp only [Launch.init, enter]
    split_ifs with hcalls
    · exact ⟨rfl, hcalls, rfl⟩
    · exact ⟨rfl, by dsimp only; omega⟩
  · have hnot : ((L.init m).waves i).pc ≠ .sync := by
      simp only [Launch.init, enter]
      split_ifs <;> simp
    exact (if_neg fun hand => hnot hand.2).symm

theorem Reaches.inv (h : L.Reaches m s) : ∃ ph, L.Inv m s ph := by
  refine Reachable.invariant h (P := fun s => ∃ ph, L.Inv m s ph) ⟨_, Inv.init⟩ ?_
  rintro s a s' ⟨ph, hph⟩ - hstep
  exact hph.step hstep

end Launch

/-- The wave has returned from call `c` and has not begun another one. -/
def Wave.Returned (c : ℕ) (v : Wave T) : Prop := v.call = c + 1 ∧ (v.pc = .work ∨ v.pc = .done)

namespace Launch

theorem Reaches.result_eq (h : L.Reaches m s) (hw : w < L.waves) (hret : (s.waves w).Returned c) :
    s.result (L.r_ptr c) = L.resultValue m c := by
  obtain ⟨ph, hinv⟩ := Reaches.inv h
  obtain ⟨hcall, hpc⟩ := hret
  have hph : ph = .fill (c + 1) := by
    have hwave := hinv.wave w hw
    rcases hpc with hpc | hpc <;> simp only [WaveInv, hpc, hcall] at hwave <;> exact hwave.1
  subst hph
  exact hinv.shared.2 c rfl

theorem Reaches.returned_lt (h : L.Reaches m s) (hw : w < L.waves) (hret : (s.waves w).Returned c) :
    c < L.calls := by
  obtain ⟨ph, hinv⟩ := Reaches.inv h
  obtain ⟨hcall, hpc⟩ := hret
  have hwave := hinv.wave w hw
  rcases hpc with hpc | hpc <;> simp only [WaveInv, hpc, hcall] at hwave <;> omega

theorem returned_enter (w c : ℕ) (v : Wave T) : (L.enter w (c + 1) v).Returned c := by
  unfold enter
  split_ifs
  · exact ⟨rfl, .inl rfl⟩
  · exact ⟨rfl, .inr rfl⟩

theorem call_nextRound (w off : ℕ) (v : Wave T) : (v.nextRound w off).call = v.call := by
  unfold Wave.nextRound
  split_ifs <;> rfl

def ahead (L : Launch T) : Pc → ℕ
  | .work => 8 + 4 * L.NW
  | .sync => 7 + 4 * L.NW
  | .own off => 6 + 4 * off
  | .other off => 5 + 4 * off
  | .put off => 4 + 4 * off
  | .load => 3
  | .write => 2
  | .endSync => 1
  | .done => 0

def waveMeasure (L : Launch T) (v : Wave T) : ℕ :=
  (L.calls - v.call) * (9 + 4 * L.NW) + L.ahead v.pc

def measure (L : Launch T) (s : State T) : ℕ :=
  ∑ w ∈ Finset.range L.waves, L.waveMeasure (s.waves w)

theorem waveMeasure_ahead {v' : Wave T} (hcall : v'.call = v.call)
    (h : L.ahead v'.pc < L.ahead v.pc) : L.waveMeasure v' < L.waveMeasure v := by
  unfold waveMeasure
  rw [hcall]
  omega

theorem waveMeasure_nextRound (hoff : 0 < off) (h : 4 + 4 * off ≤ L.ahead v.pc) :
    L.waveMeasure (v.nextRound w off) < L.waveMeasure v := by
  refine waveMeasure_ahead (call_nextRound w off v) (lt_of_lt_of_le ?_ h)
  unfold Wave.nextRound
  split_ifs <;> simp only [ahead] <;> omega

theorem waveMeasure_enter (hpc : v.pc = .endSync) :
    L.waveMeasure (L.enter w (v.call + 1) v) < L.waveMeasure v := by
  unfold enter waveMeasure
  rw [hpc]
  split_ifs with hlt
  · have hsub : L.calls - v.call = L.calls - (v.call + 1) + 1 := by omega
    dsimp only [ahead]
    rw [hsub, Nat.add_mul]
    omega
  · dsimp only [ahead]
    rw [Nat.sub_eq_zero_of_le (by omega : L.calls ≤ v.call + 1)]
    omega

/-- A step of one wave stays in the call of the wave and brings it closer to the end. -/
theorem runWave_measure {ph : Phase} (hinv : L.Inv m s ph) (hw : w < L.waves)
    (h : L.runWave w s = some s') : ∃ v', s'.waves = Function.update s.waves w v' ∧
      v'.call = (s.waves w).call ∧ L.waveMeasure v' < L.waveMeasure (s.waves w) := by
  have hwave := hinv.wave w hw
  unfold runWave at h
  cases hpc : (s.waves w).pc <;> simp only [hpc] at h <;> simp only [WaveInv, hpc] at hwave
  case put off =>
    obtain rfl := Option.some.inj h
    obtain ⟨-, ⟨j, hj, -⟩, -⟩ := hwave
    refine ⟨_, rfl, call_nextRound _ _ _, waveMeasure_nextRound ?_ ?_⟩
    · rw [hj]
      positivity
    · rw [hpc]
      rfl
  all_goals
    first
    | cases h; done
    | obtain rfl := Option.some.inj h
      refine ⟨_, rfl, rfl, waveMeasure_ahead rfl ?_⟩
      rw [hpc]
      simp only [ahead]
      omega

theorem pass_measure (h : v.pc.waiting = true) : L.waveMeasure (L.pass w v) < L.waveMeasure v := by
  unfold pass
  cases hpc : v.pc <;> simp only [hpc, Pc.waiting, Bool.false_eq_true] at h
  · apply waveMeasure_nextRound L.NW_pos
    rw [hpc]
    simp only [ahead]
    omega
  · exact waveMeasure_enter hpc

theorem step_measure {ph : Phase} {a : Action} (hinv : L.Inv m s ph) (h : L.step s a = some s') :
    L.measure s' < L.measure s := by
  cases a with
  | run w =>
    simp only [Launch.step] at h
    split_ifs at h with hw
    obtain ⟨v', hwaves, -, hlt⟩ := runWave_measure hinv hw h
    unfold measure
    rw [hwaves]
    refine Finset.sum_lt_sum (fun u _ => ?_) ⟨w, Finset.mem_range.mpr hw, ?_⟩
    · by_cases hu : u = w
      · rw [hu, Function.update_self]
        exact hlt.le
      · rw [Function.update_of_ne hu]
    · rw [Function.update_self]
      exact hlt
  | release =>
    simp only [Launch.step] at h
    split_ifs at h with hwait
    obtain rfl := Option.some.inj h
    have hpass : ∀ u < L.waves, L.waveMeasure (L.pass u (s.waves u)) < L.waveMeasure (s.waves u) :=
      fun u hu => pass_measure (hwait u hu)
    exact Finset.sum_lt_sum (fun u hu => (hpass u (Finset.mem_range.mp hu)).le)
      ⟨0, Finset.mem_range.mpr L.waves_pos, hpass 0 L.waves_pos⟩

/-- All threads have returned from the last call. -/
def Finished (L : Launch T) (s : State T) : Prop := ∀ w < L.waves, (s.waves w).pc = .done

/-- Where nothing can move, all threads have returned. -/
theorem Inv.finished_of_stuck {ph : Phase} (h : L.Inv m s ph) (hstuck : Stuck L.step s) :
    L.Finished s := by
  have hstop : ∀ u < L.waves, (s.waves u).pc.waiting = true ∨ (s.waves u).pc = .done := by
    intro u hu
    have hnone := hstuck (.run u)
    simp only [Launch.step, if_pos hu, runWave] at hnone
    cases hpc : (s.waves u).pc <;> simp only [hpc, reduceCtorEq] at hnone <;> simp [Pc.waiting]
  have hph : ∀ u < L.waves, (s.waves u).pc = .done → ∀ v < L.waves, (s.waves v).pc.waiting = false := by
    intro u hu hdone v hv
    have hwave := h.wave u hu
    have hother := h.wave v hv
    simp only [WaveInv, hdone] at hwave
    obtain ⟨rfl, hcalls⟩ := hwave
    cases hpc : (s.waves v).pc <;> simp only [WaveInv, hpc, reduceCtorEq, false_and] at hother <;>
      simp only [Pc.waiting]
    obtain ⟨hfill, hlt⟩ := hother
    have := Phase.fill.inj hfill
    omega
  intro w hw
  by_contra hdone
  have hall : ∀ u < L.waves, (s.waves u).pc.waiting = true := by
    intro u hu
    apply (hstop u hu).resolve_right
    intro hd
    have hwait := (hstop w hw).resolve_right hdone
    rw [hph u hu hd w hw] at hwait
    exact absurd hwait (by simp)
  have hnone := hstuck .release
  simp only [Launch.step, if_pos hall, reduceCtorEq] at hnone

/-- No schedule runs for ever. -/
def Terminates (L : Launch T) (m : Memory T) : Prop :=
  ∃ bound, ∀ (actions : List Action) (s : State T),
    actions.foldlM L.step (L.init m) = some s → actions.length ≤ bound

theorem terminates : L.Terminates m := by
  refine ⟨_, fun actions s h => length_le_of_measure L.measure (P := fun s => ∃ ph, L.Inv m s ph)
    ?_ actions ⟨_, Inv.init⟩ h⟩
  rintro s a s' ⟨ph, hph⟩ hstep
  exact ⟨hph.step hstep, step_measure hph hstep⟩

/-- The first wave moves to the next call by returning from the last one. -/
theorem step_call {ph : Phase} {a : Action} (hinv : L.Inv m s ph) (h : L.step s a = some s') :
    (s'.waves 0).call = (s.waves 0).call ∨ (s'.waves 0).Returned (s.waves 0).call := by
  cases a with
  | run w =>
    simp only [Launch.step] at h
    split_ifs at h with hw
    obtain ⟨v', hwaves, hcall, -⟩ := runWave_measure hinv hw h
    rw [hwaves]
    by_cases hzero : 0 = w
    · rw [← hzero, Function.update_self]
      exact .inl (hcall.trans (congrArg _ (congrArg _ hzero.symm)))
    · rw [Function.update_of_ne hzero]
      exact .inl rfl
  | release =>
    simp only [Launch.step] at h
    split_ifs at h with hwait
    obtain rfl := Option.some.inj h
    have hpc := hwait 0 L.waves_pos
    dsimp only
    cases hzero : (s.waves 0).pc <;> simp only [hzero, Pc.waiting, Bool.false_eq_true] at hpc
    · left
      simp only [pass, hzero]
      exact call_nextRound _ _ _
    · right
      simp only [pass, hzero]
      exact returned_enter _ _ _

theorem exists_returned (m : Memory T) (hc : c < L.calls) :
    ∃ s, L.Reaches m s ∧ (s.waves 0).Returned c := by
  refine Reachable.exists_goal (P := fun s => (∃ ph, L.Inv m s ph) ∧
    ((s.waves 0).call ≤ c ∨ (s.waves 0).Returned c)) (L.measure) (fun _ _ => trivial) ?_ ?_
    ⟨⟨_, Inv.init⟩, .inl ?_⟩
  · rintro s ⟨⟨ph, hinv⟩, hcall⟩ hgoal hstuck
    have hdone := hinv.finished_of_stuck hstuck 0 L.waves_pos
    have hwave := hinv.wave 0 L.waves_pos
    simp only [WaveInv, hdone] at hwave
    have := hcall.resolve_right hgoal
    omega
  · rintro s a s' ⟨⟨ph, hinv⟩, hcall⟩ hgoal hstep
    refine ⟨⟨hinv.step hstep, ?_⟩, step_measure hinv hstep⟩
    have hle := hcall.resolve_right hgoal
    rcases step_call hinv hstep with heq | hret
    · exact .inl (heq ▸ hle)
    · by_cases hlast : (s.waves 0).call = c
      · exact .inr (hlast ▸ hret)
      · refine .inl ?_
        have := hret.1
        omega
  · simp only [Launch.init, enter]
    split_ifs <;> exact Nat.zero_le _

end Launch

end Aomp.Xteam.IntraTeam
