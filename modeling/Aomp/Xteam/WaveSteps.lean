import Aomp.Xteam.Invariant

/-!
# The invariant under the steps of a wave

First what follows from the invariant and which updates keep its parts, then one lemma for
each program counter.
-/
namespace Aomp.Xteam

open Foundations

variable {T : Type*} {K : Kernel T} {m : Memory T} {s s' : State T} {r₀ : ℕ → T}
  {arrived arrived' : ℕ → List ℕ} {b : Team T} {v v' : Wave T} {ph : Phase} {td : Cell ℕ}
  {t w c off : ℕ} {r : Round}

@[simp] theorem Team.setWave_waves (b : Team T) (w : ℕ) (v : Wave T) :
    (b.setWave w v).waves = Function.update b.waves w v := rfl

@[simp] theorem Team.setWave_xwave_lds (b : Team T) (w : ℕ) (v : Wave T) :
    (b.setWave w v).xwave_lds = b.xwave_lds := rfl

@[simp] theorem Team.setWave_td (b : Team T) (w : ℕ) (v : Wave T) :
    (b.setWave w v).td = b.td := rfl

theorem State.leader_setTeam (s : State T) (t : ℕ) (b : Team T) (reads : List (ℕ × Option ℕ))
    (tests : List Test) (t' : ℕ) :
    (s.setTeam t b reads tests).leader t' = if t' = t then b.waves 0 else s.leader t' := by
  unfold State.leader State.setTeam
  by_cases ht : t' = t
  · subst ht
    simp
  · simp [ht]

theorem Wave.reached_congr (pc : Pc) (hcall : v'.call = v.call)
    (hrank : pc.rank ≤ v'.pc.rank ↔ pc.rank ≤ v.pc.rank) (c : ℕ) :
    v'.Reached pc c ↔ v.Reached pc c := by
  rw [Wave.Reached, Wave.Reached, hcall]
  exact or_congr_right (and_congr_right fun _ => hrank)

theorem Wave.Reached.mono {pc pc' : Pc} (h : v.Reached pc' c) (hrank : pc.rank ≤ pc'.rank) :
    v.Reached pc c :=
  h.imp_right fun hand => ⟨hand.1, hrank.trans hand.2⟩

theorem State.reached_setTeam {pc : Pc} (h : v.Reached pc c ↔ (s.leader t).Reached pc c) (t' : ℕ) :
    ((s.setTeam t ((s.teams t).setWave 0 v) [] []).leader t').Reached pc c ↔
      (s.leader t').Reached pc c := by
  rw [State.leader_setTeam]
  split_ifs with htt
  · subst htt
    simpa using h
  · rfl

namespace Kernel

theorem getElem?_of_extends {xs ys : List ℕ} {i a : ℕ} (h : xs <+: ys) (hi : xs[i]? = some a) :
    ys[i]? = some a := by
  obtain ⟨zs, rfl⟩ := h
  rwa [List.getElem?_append_left (List.getElem?_eq_some_iff.mp hi).1]

theorem LastTeam.extend (h : K.LastTeam arrived c t) (hext : arrived c <+: arrived' c) :
    K.LastTeam arrived' c t :=
  getElem?_of_extends hext h

theorem WaveInv.extend (h : K.WaveInv r₀ arrived t ph td w v)
    (hext : ∀ c, arrived c <+: arrived' c) : K.WaveInv r₀ arrived' t ph td w v := by
  have hplace : HasPlace arrived t v.call td → HasPlace arrived' t v.call td := fun hp =>
    ⟨hp.1, getElem?_of_extends (hext _) hp.2⟩
  obtain ⟨hcall, h⟩ := h
  refine ⟨hcall, ?_⟩
  cases hpc : v.pc <;> simp only [hpc] at h ⊢
  case saveTd => exact ⟨h.1, h.2.1, h.2.2.1, getElem?_of_extends (hext _) h.2.2.2⟩
  case tdSync => exact ⟨h.1, h.2.1, fun hw => hplace (h.2.2 hw)⟩
  case test => exact ⟨h.1, hplace h.2.1, h.2.2⟩
  all_goals exact h

theorem PhaseInv.extend (h : K.PhaseInv arrived t ph) (hext : ∀ c, arrived c <+: arrived' c) :
    K.PhaseInv arrived' t ph := by
  cases ph with
  | tree r c off => exact ⟨h.1, h.2.1, fun hr => ⟨(h.2.2 hr).1, (h.2.2 hr).2.extend (hext c)⟩⟩
  | last c => exact ⟨h.1, h.2.1, h.2.2.extend (hext c)⟩

theorem TeamInv.extend (h : K.TeamInv r₀ arrived t b ph) (hext : ∀ c, arrived c <+: arrived' c) :
    K.TeamInv r₀ arrived' t b ph :=
  ⟨h.phase.extend hext, fun w hw => (h.wave w hw).extend hext, h.lds⟩

theorem PhaseInv.off_pow (h : K.PhaseInv arrived t (.tree r c off)) : ∃ i, off = 2 ^ i := by
  obtain ⟨j, hj⟩ := h.1
  obtain ⟨n, hn⟩ := K.number_of_waves_pow
  obtain ⟨i, -, hi⟩ := (Nat.dvd_prime_pow Nat.prime_two).mp (Dvd.intro _ (hj.symm.trans hn))
  exact ⟨i, hi⟩

theorem PhaseInv.off_le (h : K.PhaseInv arrived t (.tree r c off)) : off ≤ K.number_of_waves := by
  obtain ⟨j, hj⟩ := h.1
  rw [hj]
  exact Nat.le_mul_of_pos_right _ (by positivity)

theorem phaseInv_start (hc : c < K.calls ∨ c = K.calls) :
    K.PhaseInv arrived t (.tree .threads c K.number_of_waves) := by
  refine ⟨⟨0, by simp⟩, ?_, by simp⟩
  rcases hc with hc | hc
  · exact .inl hc
  · exact .inr ⟨rfl, hc, rfl⟩

theorem waveInv_enter (hc : c ≤ K.calls) : K.WaveInv r₀ arrived t
    (.tree .threads c K.number_of_waves) td w (K.enter t w c v) := by
  unfold enter
  split_ifs with hlt
  · exact ⟨fun _ => hlt, rfl, rfl⟩
  · obtain rfl : c = K.calls := by omega
    exact ⟨fun hne => absurd rfl hne, rfl, .inl rfl⟩

theorem enter_reached {pc : Pc} (hpc : 0 < pc.rank) {c' : ℕ} :
    (K.enter t w c v).Reached pc c' ↔ c' < c := by
  have hspec : (K.enter t w c v).call = c ∧ (K.enter t w c v).pc.rank = 0 := by
    unfold enter
    split_ifs <;> exact ⟨rfl, rfl⟩
  rw [Wave.Reached, hspec.1, hspec.2]
  omega

theorem enter_stored (hc : c < K.calls) : (K.enter t w c v).pc.stored = false := by
  unfold enter
  rw [if_pos hc]
  rfl

/-- The place of a team in a call is unique, so that `td` tells whether it is the last. -/
theorem Inv.lastTeam_iff (h : K.Inv m s) (hp : HasPlace s.arrived t c td) :
    K.LastTeam s.arrived c t ↔ td.value = K.NumTeams - 1 := by
  constructor
  · intro hlast
    obtain ⟨hi, hti⟩ := List.getElem?_eq_some_iff.mp hp.2
    obtain ⟨hj, htj⟩ := List.getElem?_eq_some_iff.mp hlast
    exact (h.nodup c).getElem_inj_iff.mp (hti.trans htj.symm)
  · intro hv
    rw [LastTeam, ← hv]
    exact hp.2

theorem lastTeam_unique {t' : ℕ} (hl : K.LastTeam s.arrived c t)
    (hl' : K.LastTeam s.arrived c t') : t = t' :=
  Option.some.inj (hl.symm.trans hl')

theorem Inv.arrived_length_le (h : K.Inv m s) (c : ℕ) : (s.arrived c).length ≤ K.NumTeams := by
  have hsub : (s.arrived c).toFinset ⊆ Finset.range K.NumTeams := fun t ht =>
    Finset.mem_range.mpr ((h.mem_arrived c t).mp (List.mem_toFinset.mp ht)).1
  have hcard := Finset.card_le_card hsub
  rwa [List.toFinset_card_of_nodup (h.nodup c), Finset.card_range] at hcard

/-- When there is a last team, all teams have arrived. -/
theorem Inv.all_arrived (h : K.Inv m s) (hl : K.LastTeam s.arrived c t) :
    (s.arrived c).length = K.NumTeams ∧ ∀ t' < K.NumTeams, t' ∈ s.arrived c := by
  have hpos := K.teams_pos
  obtain ⟨hlt, -⟩ := List.getElem?_eq_some_iff.mp hl
  have hlen : (s.arrived c).length = K.NumTeams := by
    have := h.arrived_length_le c
    omega
  have hsub : (s.arrived c).toFinset ⊆ Finset.range K.NumTeams := fun t ht =>
    Finset.mem_range.mpr ((h.mem_arrived c t).mp (List.mem_toFinset.mp ht)).1
  have heq : (s.arrived c).toFinset = Finset.range K.NumTeams :=
    Finset.eq_of_subset_of_card_le hsub (by
      rw [List.toFinset_card_of_nodup (h.nodup c), Finset.card_range, hlen])
  refine ⟨hlen, fun t' ht' => ?_⟩
  rw [← List.mem_toFinset, heq]
  exact Finset.mem_range.mpr ht'

/-- The last team finds every team's value saved. -/
theorem Inv.team_vals_eq (h : K.Inv m s) (hslow : K.IS_FAST = false) (hc : c < K.calls)
    (hl : K.LastTeam s.arrived c t) {t' : ℕ} (ht' : t' < K.NumTeams) :
    s.team_vals (K.tvs c) t' = K.teamValue c t' := by
  have hreach := ((h.mem_arrived c t').mp ((h.all_arrived hl).2 t' ht')).2
  apply h.team_vals hslow c hc t' ht'
  rcases hreach with hlt | ⟨heq, hrank⟩
  · exact .inl hlt
  · refine .inr ⟨heq, ?_⟩
    simp only [Pc.rank] at hrank ⊢
    omega

theorem not_written (hl : K.LastTeam s.arrived c t)
    (hr : ¬ (s.leader t).Reached .endSync c) : ¬ K.Written s c := by
  rintro ⟨t', hl', hr'⟩
  obtain rfl := lastTeam_unique hl hl'
  exact hr hr'

/-- The leader passes none of the places that the global part of the invariant counts. -/
structure Keeps (K : Kernel T) (arrived : ℕ → List ℕ) (t : ℕ) (v v' : Wave T) : Prop where
  inc : ∀ c, v'.Reached .inc c ↔ v.Reached .inc c
  saveTd : ∀ c, v'.Reached .saveTd c ↔ v.Reached .saveTd c
  endSync : ∀ c, K.LastTeam arrived c t → (v'.Reached .endSync c ↔ v.Reached .endSync c)

theorem Keeps.refl : K.Keeps arrived t v v := ⟨fun _ => .rfl, fun _ => .rfl, fun _ _ => .rfl⟩

/-- Only the ranks of an increment, of a saved place and of the end of a call matter. -/
theorem Keeps.of_rank (hcall : v'.call = v.call)
    (hrank : ∀ n ∈ [4, 5, 16], n ≤ v'.pc.rank ↔ n ≤ v.pc.rank) : K.Keeps arrived t v v' :=
  ⟨Wave.reached_congr .inc hcall (hrank 4 (by simp)),
    Wave.reached_congr .saveTd hcall (hrank 5 (by simp)),
    fun c _ => Wave.reached_congr .endSync hcall (hrank 16 (by simp)) c⟩

theorem keeps_setWave (h : w = 0 → K.Keeps arrived t ((s.teams t).waves 0) v') :
    K.Keeps arrived t (s.leader t) (((s.teams t).setWave w v').waves 0) := by
  by_cases hw : w = 0
  · subst hw
    rw [Team.setWave_waves, Function.update_self]
    exact h rfl
  · rw [Team.setWave_waves, Function.update_of_ne (Ne.symm hw)]
    exact .refl

theorem Inv.setTeam' (h : K.Inv m s) (ht : t < K.NumTeams) {reads : List (ℕ × Option ℕ)}
    {tests : List Test} (hteam : ∃ ph, K.TeamInv m.r_ptr s.arrived t b ph)
    (hinc : K.IS_FAST = false → ∀ c < K.calls, (b.waves 0).Reached .inc c →
      s.team_vals (K.tvs c) t = K.teamValue c t)
    (hsaveTd : ∀ c, (b.waves 0).Reached .saveTd c ↔ (s.leader t).Reached .saveTd c)
    (hendSync : ∀ c, K.LastTeam s.arrived c t →
      ((b.waves 0).Reached .endSync c ↔ (s.leader t).Reached .endSync c))
    (hreads : ∀ p ∈ reads, p.2 = some p.1)
    (htests : ∀ p ∈ tests, p.team ∈ s.arrived p.call ∧
      (p.last = true ↔ K.LastTeam s.arrived p.call p.team)) :
    K.Inv m (s.setTeam t b reads tests) := by
  have hwritten : ∀ c, K.Written (s.setTeam t b reads tests) c ↔ K.Written s c := fun c => by
    refine exists_congr fun t' => and_congr_right fun hl => ?_
    rw [State.leader_setTeam]
    split_ifs with heq
    · subst heq
      exact hendSync c hl
    · rfl
  refine ⟨fun t' ht' => ?_, h.nodup, fun c t' => ?_, h.teams_done, fun hslow c hc t' ht' hr => ?_,
    fun hslow c hc hw => h.written hslow c hc ((hwritten c).mp hw),
    fun hslow c hc hw => h.unwritten hslow c hc (mt (hwritten c).mpr hw), h.added, ?_, ?_⟩
  · by_cases heq : t' = t
    · subst heq
      simpa [State.setTeam] using hteam
    · simpa [State.setTeam, heq] using h.team t' ht'
  · rw [State.leader_setTeam]
    split_ifs with heq
    · subst heq
      rw [hsaveTd c]
      exact h.mem_arrived c t'
    · exact h.mem_arrived c t'
  · rw [State.leader_setTeam] at hr
    split_ifs at hr with heq
    · subst heq
      exact hinc hslow c hc hr
    · exact h.team_vals hslow c hc t' ht' hr
  · intro p hp
    rcases List.mem_append.mp hp with hp | hp
    · exact hreads p hp
    · exact h.reads p hp
  · intro p hp
    rcases List.mem_append.mp hp with hp | hp
    · exact htests p hp
    · exact h.tests p hp

theorem Inv.setTeam (h : K.Inv m s) (ht : t < K.NumTeams) {reads : List (ℕ × Option ℕ)}
    {tests : List Test} (hteam : ∃ ph, K.TeamInv m.r_ptr s.arrived t b ph)
    (hkeeps : K.Keeps s.arrived t (s.leader t) (b.waves 0))
    (hreads : ∀ p ∈ reads, p.2 = some p.1)
    (htests : ∀ p ∈ tests, p.team ∈ s.arrived p.call ∧
      (p.last = true ↔ K.LastTeam s.arrived p.call p.team)) :
    K.Inv m (s.setTeam t b reads tests) :=
  h.setTeam' ht hteam (fun hslow c hc hr => h.team_vals hslow c hc t ht ((hkeeps.inc c).mp hr))
    hkeeps.saveTd hkeeps.endSync hreads htests

theorem LdsInv.setWave (h : K.LdsInv t b ph) (hs : v.pc.stored = (b.waves w).pc.stored) :
    K.LdsInv t (b.setWave w v) ph := by
  have hstored : ∀ u, ((b.setWave w v).waves u).pc.stored = (b.waves u).pc.stored := by
    intro u
    by_cases hu : u = w
    · subst hu
      simp [hs]
    · simp [hu]
  cases ph with
  | tree r c off =>
    intro hc i
    rw [hstored, hstored]
    exact h hc i
  | last c => trivial

theorem TeamInv.setWave (h : K.TeamInv r₀ arrived t b ph)
    (hv : K.WaveInv r₀ arrived t ph b.td w v) (hlds : K.LdsInv t (b.setWave w v) ph) :
    K.TeamInv r₀ arrived t (b.setWave w v) ph := by
  refine ⟨h.phase, fun u hu => ?_, hlds⟩
  by_cases huw : u = w
  · subst huw
    simpa using hv
  · simpa [huw] using h.wave u hu

/-- The wave that the head of the tree loop makes of one that has stored. -/
theorem nextRound_spec (r₀ : ℕ → T) (td : Cell ℕ)
    (hfast : K.IS_FAST = true → K.number_of_waves = 1 ∨ K.calls ≤ 1)
    (hph : K.PhaseInv arrived t (.tree r c off)) (hcall : v.call = c) (hc : c < K.calls)
    (hw : w < K.number_of_waves) :
    K.WaveInv r₀ arrived t (.tree r c off) td w (K.nextRound t w r off v) ∧
      (K.nextRound t w r off v).pc.stored = true := by
  subst hcall
  obtain ⟨i, rfl⟩ := hph.off_pow
  unfold nextRound
  split_ifs with hhalf
  · refine ⟨⟨fun _ => hc, ?_, hhalf⟩, rfl⟩
    have heven : 2 * (2 ^ i / 2) = 2 ^ i := by
      cases i with
      | zero => simp at hhalf
      | succ i => omega
    show _ = Phase.tree r v.call (2 * (2 ^ i / 2))
    rw [heven]
  · have hone : 2 ^ i = 1 := by
      have := Nat.one_le_two_pow (n := i)
      omega
    rw [hone]
    unfold leave
    by_cases hw0 : w = 0
    · rw [if_pos hw0]
      exact ⟨⟨fun _ => hc, rfl, hw0⟩, rfl⟩
    · rw [if_neg hw0]
      cases r with
      | teams => exact ⟨⟨fun _ => hc, rfl⟩, rfl⟩
      | threads =>
        by_cases hf : K.IS_FAST = true
        · simp only [hf, if_true]
          -- a fast call with several waves is the only one
          have hcalls : K.calls = 1 := by
            rcases hfast hf with h1 | h1 <;> omega
          have hv0 : v.call = 0 := by omega
          unfold enter
          rw [if_neg (by omega)]
          refine ⟨⟨fun hne => absurd rfl hne, ?_, .inr ⟨hf, by omega, ?_⟩⟩, rfl⟩
          · show v.call + 1 = K.calls
            omega
          · rw [hv0]
        · simp only [hf, Bool.false_eq_true, if_false]
          exact ⟨⟨fun _ => hc, rfl, by simpa using hf, fun h => absurd h hw0⟩, rfl⟩

theorem nextRound_keeps (hw : w = 0)
    (hlow : r = .threads ∧ v.pc.rank < 4 ∨ r = .teams ∧ 5 ≤ v.pc.rank ∧ v.pc.rank < 16) :
    K.Keeps arrived t v (K.nextRound t w r off v) := by
  have hrank : ∀ pc : Pc, (pc = .sync r (off / 2) ∨ pc = .load r) →
      K.Keeps arrived t v { v with pc := pc } := by
    rintro pc hpc
    obtain ⟨rfl, h⟩ | ⟨rfl, h⟩ := hlow
    · have hnew : pc.rank < 4 := by rcases hpc with rfl | rfl <;> simp [Pc.rank]
      exact .of_rank rfl (by simp; omega)
    · have hnew : 5 ≤ pc.rank ∧ pc.rank < 16 := by
        rcases hpc with rfl | rfl <;> simp [Pc.rank]
      exact .of_rank rfl (by simp; omega)
  unfold nextRound leave
  rw [if_pos hw]
  split_ifs
  · exact hrank _ (.inl rfl)
  · exact hrank _ (.inr rfl)

section Steps

variable (h : K.Inv m s) (ht : t < K.NumTeams) (hw : w < K.number_of_waves)
include h ht hw

theorem Inv.work (hK : K.Undisturbed m) (hpc : ((s.teams t).waves w).pc = .work r)
    (hs : K.runWave t w s = some s') : K.Inv m s' := by
  simp only [runWave, hpc, Option.some.injEq] at hs
  subst hs
  obtain ⟨ph, hteam⟩ := h.team t ht
  have hwave := hteam.wave w hw
  simp only [WaveInv, hpc] at hwave
  obtain ⟨hcall, hph, hval⟩ := hwave
  have hc := hcall (by simp)
  subst hph
  obtain ⟨hnext, hstored⟩ := nextRound_spec m.r_ptr (s.teams t).td hK.fast
    hteam.phase rfl hc hw
  refine h.setTeam ht ⟨_, hteam.phase, fun u hu => ?_, fun _ i => ⟨fun hi hst => ?_, ?_⟩⟩ ?_
    (by simp) (by simp)
  · by_cases huw : u = w
    · subst huw
      simpa using hnext
    · simpa [huw] using hteam.wave u hu
  · by_cases hiw : i = w
    · subst hiw
      dsimp only
      rw [Function.update_self, hval, ldsValue, pairTree_of_le le_rfl]
    · have hown : K.owner K.number_of_waves i = i := if_pos rfl
      rw [hown] at hst
      dsimp only
      rw [Function.update_of_ne hiw]
      refine ((hteam.lds hc i).1 hi ?_)
      rw [hown]
      simpa [hiw] using hst
  · intro hlt
    exact absurd hlt (lt_irrefl _)
  · apply keeps_setWave
    intro hw0
    subst hw0
    apply nextRound_keeps rfl
    rw [hpc]
    cases r <;> simp [Pc.rank]

omit hw in
/-- A round of the tree, in which every lane of a wave loads a slot that its own call has stored. -/
theorem Inv.loadSlots {slot : ℕ → ℕ} {ph : Phase} {v : Wave T}
    (hcall : v.call = ((s.teams t).waves w).call)
    (hrank : v.pc.rank = ((s.teams t).waves w).pc.rank)
    (hstored : v.pc.stored = ((s.teams t).waves w).pc.stored)
    (hteam : K.TeamInv m.r_ptr s.arrived t (s.teams t) ph)
    (hv : K.WaveInv m.r_ptr s.arrived t ph (s.teams t).td w v)
    (hlds : ∀ l < K.WSZ, K.threadNum w l < off →
      ((s.teams t).xwave_lds (slot l)).call = some v.call) :
    K.Inv m (s.setTeam t ((s.teams t).setWave w v)
      ((K.lanes w off).map fun lane => (v.call, ((s.teams t).xwave_lds (slot lane)).call)) []) := by
  refine h.setTeam ht ⟨ph, hteam.setWave hv (hteam.lds.setWave hstored)⟩ ?_ ?_ (by simp)
  · apply keeps_setWave
    intro hw0
    subst hw0
    exact .of_rank hcall fun n _ => by rw [hrank]
  · intro p hp
    obtain ⟨l, hl, rfl⟩ := List.mem_map.mp hp
    simp only [lanes, List.mem_filter, List.mem_range, decide_eq_true_eq] at hl
    exact hlds l hl.1 hl.2

theorem Inv.own (hpc : ((s.teams t).waves w).pc = .own r off) (hs : K.runWave t w s = some s') :
    K.Inv m s' := by
  simp only [runWave, hpc, Option.some.injEq] at hs
  subst hs
  obtain ⟨ph, hteam⟩ := h.team t ht
  have hwave := hteam.wave w hw
  simp only [WaveInv, hpc] at hwave
  obtain ⟨hcall, hph, hoff⟩ := hwave
  have hc := hcall (by simp)
  subst hph
  -- no lane has stored, so that every slot it loads is of the round before
  have hlds : ∀ l < K.WSZ, K.threadNum w l < off → (s.teams t).xwave_lds (K.threadNum w l) =
      ⟨K.ldsValue r ((s.teams t).waves w).call t (2 * off) (K.threadNum w l),
        some ((s.teams t).waves w).call⟩ := by
    intro l hl hlt
    refine (hteam.lds hc _).2 hoff (by omega) (.inr ?_)
    have hdiv : K.threadNum w l / K.WSZ = w := by
      rw [threadNum, mul_comm, Nat.mul_add_div K.WSZ_pos, Nat.div_eq_of_lt hl, add_zero]
    rw [hdiv, hpc]
    rfl
  refine h.loadSlots ht ?_ ?_ ?_ hteam ?_ ?_
  · rfl
  · rw [hpc]
    cases r <;> rfl
  · rw [hpc]
    rfl
  · refine ⟨fun _ => hc, rfl, hoff, fun l hl hlt => ?_⟩
    show ((s.teams t).xwave_lds (K.threadNum w l)).value = _
    rw [hlds l hl hlt]
  · intro l hl hlt
    rw [hlds l hl hlt]

theorem Inv.other (hpc : ((s.teams t).waves w).pc = .other r off)
    (hs : K.runWave t w s = some s') : K.Inv m s' := by
  simp only [runWave, hpc, Option.some.injEq] at hs
  subst hs
  obtain ⟨ph, hteam⟩ := h.team t ht
  have hwave := hteam.wave w hw
  simp only [WaveInv, hpc] at hwave
  obtain ⟨hcall, hph, hoff, hown⟩ := hwave
  have hc := hcall (by simp)
  subst hph
  -- nobody stores to the upper half of the slots in this round
  have hlds : ∀ l, K.threadNum w l < off → (s.teams t).xwave_lds (K.threadNum w l + off) =
      ⟨K.ldsValue r ((s.teams t).waves w).call t (2 * off) (K.threadNum w l + off),
        some ((s.teams t).waves w).call⟩ :=
    fun l hlt => (hteam.lds hc _).2 hoff (by omega) (.inl (by omega))
  refine h.loadSlots ht ?_ ?_ ?_ hteam ?_ ?_
  · rfl
  · rw [hpc]
    cases r <;> rfl
  · rw [hpc]
    rfl
  · refine ⟨fun _ => hc, rfl, hoff, fun l hl hlt => ⟨hown l hl hlt, ?_⟩⟩
    show ((s.teams t).xwave_lds (K.threadNum w l + off)).value = _
    rw [hlds l hlt]
  · intro l _ hlt
    rw [hlds l hlt]

theorem Inv.put (hK : K.Undisturbed m) (hpc : ((s.teams t).waves w).pc = .put r off)
    (hs : K.runWave t w s = some s') : K.Inv m s' := by
  simp only [runWave, hpc, Option.some.injEq] at hs
  subst hs
  obtain ⟨ph, hteam⟩ := h.team t ht
  have hwave := hteam.wave w hw
  simp only [WaveInv, hpc] at hwave
  obtain ⟨hcall, hph, hoff, hval⟩ := hwave
  have hc := hcall (by simp)
  subst hph
  obtain ⟨i₀, hpow⟩ := hteam.phase.off_pow
  have hpos : 0 < off := by
    rw [hpow]
    positivity
  have hown : ∀ i, K.owner off i = i / K.WSZ := fun i => if_neg hoff.ne
  obtain ⟨hnext, hstored⟩ := nextRound_spec m.r_ptr (s.teams t).td hK.fast
    hteam.phase rfl hc hw
  refine h.setTeam ht ⟨_, hteam.phase, fun u hu => ?_, fun _ i => ⟨fun hi hst => ?_,
    fun _ hi hst => ?_⟩⟩ ?_ (by simp) (by simp)
  · by_cases huw : u = w
    · subst huw
      simpa using hnext
    · simpa [huw] using hteam.wave u hu
  · rw [hown] at hst
    dsimp only
    by_cases hiw : i / K.WSZ = w
    · rw [if_pos ⟨hi, hiw⟩]
      have hmod : i % K.WSZ < K.WSZ := Nat.mod_lt _ K.WSZ_pos
      have hthread : K.threadNum w (i % K.WSZ) = i := by
        rw [threadNum, ← hiw, mul_comm]
        exact Nat.div_add_mod i K.WSZ
      obtain ⟨hl, hr⟩ := hval _ hmod (by rwa [hthread])
      rw [hl, hr, hthread, ldsValue, ldsValue, ldsValue, pairTree_of_lt hpos hoff]
    · rw [if_neg fun hand => hiw hand.2]
      apply (hteam.lds hc i).1 hi
      rw [hown]
      simpa [hiw] using hst
  · dsimp only
    by_cases hiw : i / K.WSZ = w
    · -- the slots of this wave below `off` are stored now
      have hge : off ≤ i := by
        rcases hst with hge | hst
        · exact hge
        · rw [Team.setWave_waves, hiw, Function.update_self, hstored] at hst
          exact absurd hst (by simp)
      rw [if_neg fun hand => by omega]
      exact (hteam.lds hc i).2 hoff hi (.inl hge)
    · rw [if_neg fun hand => hiw hand.2]
      apply (hteam.lds hc i).2 hoff hi
      simpa [hiw] using hst
  · apply keeps_setWave
    intro hw0
    subst hw0
    apply nextRound_keeps rfl
    rw [hpc]
    cases r <;> simp [Pc.rank]

/-- Thread 0 finds the whole tree in `xwave_lds[0]`. -/
theorem Inv.lds_zero (hpc : ((s.teams t).waves w).pc = .load r) :
    (s.teams t).xwave_lds 0 = ⟨K.ldsValue r ((s.teams t).waves w).call t 1 0,
      some ((s.teams t).waves w).call⟩ := by
  obtain ⟨ph, hteam⟩ := h.team t ht
  have hwave := hteam.wave w hw
  simp only [WaveInv, hpc] at hwave
  obtain ⟨hcall, rfl, rfl⟩ := hwave
  apply (hteam.lds (hcall (by simp)) 0).1 one_pos
  have hown : K.owner 1 0 = 0 := by
    unfold owner
    split_ifs
    · rfl
    · exact Nat.zero_div _
  rw [hown, hpc]
  rfl

theorem Inv.load (hpc : ((s.teams t).waves w).pc = .load r) (hs : K.runWave t w s = some s') :
    K.Inv m s' := by
  have hlds := h.lds_zero ht hw hpc
  obtain ⟨ph, hteam⟩ := h.team t ht
  have hwave := hteam.wave w hw
  simp only [WaveInv, hpc] at hwave
  obtain ⟨hcall, rfl, rfl⟩ := hwave
  have hc := hcall (by simp)
  cases r with
  | threads =>
    simp only [runWave, hpc, Option.some.injEq] at hs
    subst hs
    refine h.setTeam ht ⟨_, hteam.setWave ?_ (hteam.lds.setWave ?_)⟩ ?_ (by simp [hlds]) (by simp)
    · by_cases hf : K.IS_FAST = true
      · rw [if_pos hf]
        exact ⟨fun _ => hc, rfl, rfl, hf, by rw [hlds]; rfl⟩
      · rw [if_neg hf]
        exact ⟨fun _ => hc, rfl, rfl, by simpa using hf, by rw [hlds]; rfl⟩
    · rw [hpc]
      dsimp only
      split_ifs <;> rfl
    · refine keeps_setWave fun _ => .of_rank rfl ?_
      rw [hpc]
      dsimp only
      split_ifs <;> simp [Pc.rank]
  | teams =>
    simp only [runWave, hpc, Option.some.injEq] at hs
    subst hs
    refine h.setTeam ht ⟨_, hteam.setWave ⟨fun _ => hc, rfl, rfl, by rw [hlds]; rfl⟩
      (hteam.lds.setWave (by rw [hpc]; rfl))⟩ ?_ (by simp [hlds]) (by simp)
    exact keeps_setWave fun _ => .of_rank rfl (by simp [hpc, Pc.rank])

end Steps

end Kernel

end Aomp.Xteam
