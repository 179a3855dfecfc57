import Aomp.Foundations.ChargedRuns
import Aomp.Hostexec.Linearizability

/-!
# Every call completes in a bounded number of steps

A failed compare-and-swap means that another wave or the consumer has moved a stack top. So
the steps of all waves and of the consumer together, but for idle polling, are bounded by the
number of calls, whatever the interleaving; and while a call is in progress, some step is
enabled that is no idle polling.
-/
namespace Aomp.Hostexec

open Foundations

variable {cfg : Config} {s s' : State cfg} {L : Lists} {raw : Buffer} {v w : Fin cfg.waves}
  {t : Wave} {out : Slot}

/-- The steps of a call from here on when no attempt fails. Each swap that succeeds is charged
two steps more for each wave, since it can make one attempt of each wave fail; the push on the
ready stack pays besides for the consumer to grab the stack. -/
def Pc.remaining (waves : ℕ) : Pc → ℕ
  | .idle => 0
  | .push .free .cas => 2 * waves + 2
  | .push .free .link => 2 * waves + 3
  | .push .free .load => 2 * waves + 4
  | .read j => 2 * waves + 5 + (7 - j)
  | .wait => 2 * waves + 13
  | .ring => 2 * waves + 14
  | .push .ready .cas => 6 * waves + 154
  | .push .ready .link => 6 * waves + 155
  | .push .ready .load => 6 * waves + 156
  | .fillWord j => 6 * waves + 157 + (7 - j)
  | .fillHeader => 6 * waves + 165
  | .pop .cas => 8 * waves + 166
  | .pop .next => 8 * waves + 167
  | .pop .load => 8 * waves + 168

def surcharge (b : Buffer) (t : Wave) : ℕ :=
  match t.pc with
  | .pop .next | .pop .cas => if t.F = b.free_stack then 0 else 2
  | .push st .link | .push st .cas => if t.F = b.top st then 0 else 2
  | _ => 0

def unserved (cfg : Config) (hd : ℕ → Header) (t : Wave) : ℕ :=
  if (t.pc = .ring ∨ t.pc = .wait) ∧ readyFlag hd (cfg.index t.packet_ptr) = 1#32 then 69 else 0

def waveCost (s : State cfg) (w : Fin cfg.waves) : ℕ :=
  (s.waves w).pc.remaining cfg.waves + surcharge s.buf (s.waves w) +
    unserved cfg s.buf.headers (s.waves w)

def HostPc.remaining : HostPc → ℕ
  | .idle => 0
  | .loadNext => 69
  | .loadMask => 68
  | .loadService => 67
  | .lane wi => 2 + (64 - wi)
  | .sanitize => 2
  | .clear => 1

def grabCost (s : State cfg) : ℕ := if s.buf.ready_stack = 0#64 then 0 else 2 * cfg.waves + 70

def potential (s : State cfg) : ℕ := ∑ w, waveCost s w + s.consumer.pc.remaining + grabCost s

theorem surcharge_le (b : Buffer) (t : Wave) : surcharge b t ≤ 2 := by
  unfold surcharge
  split <;> first | omega | (split_ifs <;> omega)

theorem unserved_congr {hd hd' : ℕ → Header}
    (h : t.pc = .ring ∨ t.pc = .wait →
      readyFlag hd' (cfg.index t.packet_ptr) = readyFlag hd (cfg.index t.packet_ptr)) :
    unserved cfg hd' t = unserved cfg hd t := by
  unfold unserved
  by_cases hpc : t.pc = .ring ∨ t.pc = .wait
  · rw [h hpc]
  · simp [hpc]

/-- What a step leaves of a wave and its packet. -/
structure Untouched (s s' : State cfg) (v : Fin cfg.waves) : Prop where
  wave : s'.waves v = s.waves v
  flag : (s.waves v).pc = .ring ∨ (s.waves v).pc = .wait →
    readyFlag s'.buf.headers (cfg.index (s.waves v).packet_ptr) =
      readyFlag s.buf.headers (cfg.index (s.waves v).packet_ptr)

theorem Untouched.cost_le (h : Untouched s s' v) : waveCost s' v ≤ waveCost s v + 2 := by
  have hsur := surcharge_le s'.buf (s.waves v)
  rw [waveCost, waveCost, h.wave, unserved_congr h.flag]
  omega

theorem Untouched.cost_eq (h : Untouched s s' v) (htop : ∀ st, s'.buf.top st = s.buf.top st) :
    waveCost s' v = waveCost s v := by
  have hfree : s'.buf.free_stack = s.buf.free_stack := htop .free
  have hsur : surcharge s'.buf (s.waves v) = surcharge s.buf (s.waves v) := by
    unfold surcharge
    simp only [hfree, htop]
  rw [waveCost, waveCost, h.wave, unserved_congr h.flag, hsur]

theorem potential_lt (w : Fin cfg.waves) (k c : ℕ)
    (hother : ∀ v, v ≠ w → waveCost s' v ≤ waveCost s v + k)
    (hself : waveCost s' w + cfg.waves * k + c ≤ waveCost s w)
    (hconsumer : s'.consumer = s.consumer) (hgrab : grabCost s' + 1 ≤ grabCost s + c) :
    potential s' + 1 ≤ potential s := by
  have hsum := sum_add_le_of_ne w k c hother hself
  rw [potential, potential, hconsumer]
  omega

theorem potential_local (w : Fin cfg.waves) (hother : ∀ v, v ≠ w → Untouched s s' v)
    (htop : ∀ st, s'.buf.top st = s.buf.top st) (hconsumer : s'.consumer = s.consumer)
    (hself : waveCost s' w + 1 ≤ waveCost s w) : potential s' + 1 ≤ potential s := by
  have hready : s'.buf.ready_stack = s.buf.ready_stack := htop .ready
  apply potential_lt w 0 1 (fun v hv => ?_) (by omega) hconsumer
  · rw [grabCost, grabCost, hready]
  · rw [(hother v hv).cost_eq htop, Nat.add_zero]

theorem WaveCase.untouched (h : WaveCase s w s') (hinv : Inv s L) (hv : v ≠ w) :
    Untouched s s' v := by
  refine ⟨h.other hv, fun hpc => ?_⟩
  cases h with
  | fillHeader hfill =>
    have hownv : (s.waves v).pc.owns := by
      rcases hpc with hpc | hpc <;> simp [hpc, Pc.owns]
    have hownw : (s.waves w).pc.owns := by simp [hfill, Pc.owns]
    have hne : cfg.index (s.waves v).packet_ptr ≠ cfg.index (s.waves w).packet_ptr :=
      fun he => hv (hinv.holding.inj v w hownv hownw he)
    simp [readyFlag, hinv.index_eq, Function.update_of_ne hne]
  | pushLink st hlink =>
    by_cases he : cfg.index (s.waves v).packet_ptr =
        cfg.index ((s.waves w).pushPtr s.buf.index_size st)
    · simp [readyFlag, hinv.index_eq, Buffer.getHeader, he]
    · simp [readyFlag, hinv.index_eq, Function.update_of_ne he]
  | _ => simp

def Spins (s : State cfg) (w : Fin cfg.waves) : Prop :=
  (s.waves w).pc = .wait ∧ getReadyFlag (s.buf.getHeader (s.waves w).packet_ptr).control ≠ 0#32

/-- Every step of a wave but a spin lowers the potential. -/
theorem WaveCase.pays (h : WaveCase s w s') (hinv : Inv s L) :
    s' = s ∧ Spins s w ∨ potential s' + 1 ≤ potential s := by
  have hother : ∀ v, v ≠ w → Untouched s s' v := fun v hv => h.untouched hinv hv
  cases h with
  | spin hpc hflag => exact .inl ⟨rfl, hpc, hflag⟩
  | popLoad hpc =>
    refine .inr (potential_local w hother (fun _ => rfl) rfl ?_)
    simp [waveCost, hpc, Pc.remaining, surcharge, unserved]
  | popNext hpc =>
    refine .inr (potential_local w hother (fun _ => rfl) rfl ?_)
    simp [waveCost, hpc, Pc.remaining, surcharge, unserved]
  | popTake hpc htop =>
    refine .inr (potential_lt w 2 1 (fun v hv => (hother v hv).cost_le) ?_ rfl le_rfl)
    simp [waveCost, hpc, Pc.remaining, surcharge, unserved, htop]
    omega
  | popRetry hpc htop =>
    refine .inr (potential_local w hother (fun _ => rfl) rfl ?_)
    simp [waveCost, hpc, Pc.remaining, surcharge, unserved, Ne.symm htop]
  | fillHeader hpc =>
    refine .inr (potential_local w hother (fun _ => rfl) rfl ?_)
    simp [waveCost, hpc, Pc.remaining, surcharge, unserved]
  | fillWord j hpc =>
    refine .inr (potential_local w hother (fun _ => rfl) rfl ?_)
    by_cases hj : j + 1 < 8
    · simp [waveCost, hpc, Pc.remaining, surcharge, unserved, hj]
      omega
    · simp [waveCost, hpc, Pc.remaining, surcharge, unserved, hj]
  | pushLoad st hpc =>
    refine .inr (potential_local w hother (fun _ => rfl) rfl ?_)
    cases st <;> simp [waveCost, hpc, Pc.remaining, surcharge, unserved]
  | pushLink st hpc =>
    refine .inr (potential_local w hother (fun st => by cases st <;> rfl) rfl ?_)
    have htop : ((s.waves w).F = (s.buf.setHeader ((s.waves w).pushPtr s.buf.index_size st)
        { s.buf.getHeader ((s.waves w).pushPtr s.buf.index_size st) with
          next := (s.waves w).F }).top st) = ((s.waves w).F = s.buf.top st) := by cases st <;> rfl
    cases st <;> simp only [waveCost, hpc, Pc.remaining, surcharge, unserved, State.setWave_waves,
      State.setWave_buf, State.setBuf_buf, Function.update_self, htop] <;> simp
  | pushRetry st hpc htop =>
    refine .inr (potential_local w hother (fun _ => rfl) rfl ?_)
    cases st <;> simp [waveCost, hpc, Pc.remaining, surcharge, unserved, Ne.symm htop]
  | pushReady hpc htop =>
    refine .inr (potential_lt w 2 (2 * cfg.waves + 71) (fun v hv => (hother v hv).cost_le) ?_ rfl ?_)
    · simp [waveCost, hpc, Pc.remaining, surcharge, unserved, htop, Buffer.top]
      split_ifs <;> omega
    · rw [grabCost, grabCost]
      split_ifs <;> omega
  | pushFree hpc htop =>
    refine .inr (potential_lt w 2 1 (fun v hv => (hother v hv).cost_le) ?_ rfl le_rfl)
    simp [waveCost, hpc, Pc.remaining, surcharge, unserved, htop, Buffer.top]
    omega
  | ring hpc =>
    refine .inr (potential_local w hother (fun st => by cases st <;> rfl) rfl ?_)
    simp [waveCost, hpc, Pc.remaining, surcharge, unserved]
  | answered hpc hflag =>
    refine .inr (potential_local w hother (fun _ => rfl) rfl ?_)
    simp [waveCost, hpc, Pc.remaining, surcharge, unserved]
  | read j hpc =>
    refine .inr (potential_local w hother (fun _ => rfl) rfl ?_)
    by_cases hj : j + 1 < 8
    · simp [waveCost, hpc, Pc.remaining, surcharge, unserved, hj]
      omega
    · simp [waveCost, hpc, Pc.remaining, surcharge, unserved, hj]

theorem potential_consumer (hother : ∀ v, Untouched s s' v)
    (htop : ∀ st, s'.buf.top st = s.buf.top st)
    (hpc : s'.consumer.pc.remaining + 1 ≤ s.consumer.pc.remaining) :
    potential s' + 1 ≤ potential s := by
  have hready : s'.buf.ready_stack = s.buf.ready_stack := htop .ready
  have hsum : ∑ v, waveCost s' v = ∑ v, waveCost s v :=
    Finset.sum_congr rfl fun v _ => (hother v).cost_eq htop
  rw [potential, potential, hsum, grabCost, grabCost, hready]
  omega

theorem potential_grab (hpc : s.consumer.pc = .idle) (htop : s.buf.ready_stack ≠ 0#64)
    (hother : ∀ v, Untouched s s' v) (hready : s'.buf.ready_stack = 0#64)
    (hpc' : s'.consumer.pc = .loadNext) : potential s' + 1 ≤ potential s := by
  have hsum := sum_le_add 2 fun v => (hother v).cost_le
  rw [potential, potential, grabCost, grabCost, if_neg htop, if_pos hready, hpc, hpc',
    HostPc.remaining, HostPc.remaining]
  omega

/-- A packet is answered: its wave has no more to wait for. -/
theorem potential_clear (hinv : Inv s L) (hpc : s.consumer.pc = .clear) (hwaves : s'.waves = s.waves)
    (hheaders : s'.buf.headers = Function.update s.buf.headers (cfg.index s.consumer.iter)
      { s.buf.headers (cfg.index s.consumer.iter) with
        control := resetReadyFlag (s.buf.headers (cfg.index s.consumer.iter)).control })
    (htop : ∀ st, s'.buf.top st = s.buf.top st)
    (hpc' : s'.consumer.pc = .idle ∨ s'.consumer.pc = .loadNext) :
    potential s' + 1 ≤ potential s := by
  obtain ⟨w, hposted, hw, hflag⟩ := hinv.answered_holder (by simp [hpc])
  have hownw := Pc.owns_of_filled (Pc.filled_of_posted hposted)
  have hready : s'.buf.ready_stack = s.buf.ready_stack := htop .ready
  have hwaiting : (s.waves w).pc = .ring ∨ (s.waves w).pc = .wait := by
    have hnot : (s.waves w).pc.released ≠ true := by
      intro hrel
      have hzero := (hinv.wave w).released hrel
      rw [hw, hflag] at hzero
      simp at hzero
    cases hp : (s.waves w).pc with
    | ring => exact .inl rfl
    | wait => exact .inr rfl
    | push st p => cases st <;> simp [hp, Pc.posted, Pc.released] at hposted hnot
    | _ => simp [hp, Pc.posted, Pc.released] at hposted hnot
  have hother : ∀ v, v ≠ w → waveCost s' v ≤ waveCost s v + 0 := by
    intro v hv
    have huntouched : Untouched s s' v := by
      refine ⟨by rw [hwaves], fun hp => ?_⟩
      have hownv : (s.waves v).pc.owns := by
        rcases hp with hp | hp <;> simp [hp, Pc.owns]
      have hne : cfg.index (s.waves v).packet_ptr ≠ cfg.index s.consumer.iter :=
        fun he => hv (hinv.holding.inj v w hownv hownw (he.trans hw.symm))
      rw [readyFlag, readyFlag, hheaders, Function.update_of_ne hne]
    rw [huntouched.cost_eq htop, Nat.add_zero]
  have hself : waveCost s' w + cfg.waves * 0 + 69 ≤ waveCost s w := by
    have hcost : ∀ s'' : State cfg, s''.waves = s.waves → waveCost s'' w =
        (s.waves w).pc.remaining cfg.waves + unserved cfg s''.buf.headers (s.waves w) := by
      intro s'' hs''
      have hsur : surcharge s''.buf (s.waves w) = 0 := by
        rcases hwaiting with hp | hp <;> simp [surcharge, hp]
      rw [waveCost, hs'', hsur, Nat.add_zero]
    have hbefore : unserved cfg s.buf.headers (s.waves w) = 69 := if_pos ⟨hwaiting, hw ▸ hflag⟩
    have hafter : unserved cfg s'.buf.headers (s.waves w) = 0 := by
      apply if_neg
      rintro ⟨-, hone⟩
      simp [readyFlag, hheaders, hw] at hone
    rw [hcost s' hwaves, hcost s rfl, hbefore, hafter]
    omega
  have hsum := sum_add_le_of_ne w 0 69 hother hself
  rw [potential, potential, grabCost, grabCost, hready, hpc]
  rcases hpc' with hpc' | hpc' <;> rw [hpc'] <;> simp only [HostPc.remaining] <;> omega

/-- Every step of the consumer but a look at an empty stack lowers the potential. -/
theorem HostCase.pays (h : HostCase s out s') (hinv : Inv s L) :
    s' = s ∧ s.consumer.pc = .idle ∧ s.buf.ready_stack = 0#64 ∨
      potential s' + 1 ≤ potential s := by
  cases h with
  | grabNone hpc htop =>
    have hbuf : s.buf.setTop .ready 0#64 = s.buf := by
      rw [← htop]
      rfl
    refine .inl ⟨?_, hpc, htop⟩
    rw [hbuf]
    rfl
  | grab hpc htop =>
    exact .inr (potential_grab hpc htop (fun _ => ⟨rfl, fun _ => rfl⟩) rfl rfl)
  | loadNext hpc =>
    refine .inr (potential_consumer (fun _ => ⟨rfl, fun _ => rfl⟩) (fun _ => rfl) ?_)
    simp [hpc, HostPc.remaining]
  | loadMask hpc =>
    refine .inr (potential_consumer (fun _ => ⟨rfl, fun _ => rfl⟩) (fun _ => rfl) ?_)
    simp [hpc, HostPc.remaining]
  | loadService hpc =>
    refine .inr (potential_consumer (fun _ => ⟨rfl, fun _ => rfl⟩) (fun _ => rfl) ?_)
    rw [hpc]
    dsimp only
    split_ifs <;> simp [HostPc.remaining]
  | sanitize hpc =>
    refine .inr (potential_consumer (fun _ => ⟨rfl, fun _ => rfl⟩) (fun _ => rfl) ?_)
    simp [hpc, HostPc.remaining]
  | execute lane hpc hactive hservice =>
    refine .inr (potential_consumer (fun _ => ⟨rfl, fun _ => rfl⟩)
      (fun st => by cases st <;> rfl) ?_)
    have := lane.isLt
    simp only [hpc, HostPc.remaining]
    omega
  | skip lane hpc hactive =>
    refine .inr (potential_consumer (fun _ => ⟨rfl, fun _ => rfl⟩) (fun _ => rfl) ?_)
    have := lane.isLt
    simp only [hpc, HostPc.remaining]
    omega
  | lanesDone wi hpc hwi =>
    refine .inr (potential_consumer (fun _ => ⟨rfl, fun _ => rfl⟩) (fun _ => rfl) ?_)
    simp only [hpc, HostPc.remaining]
    omega
  | clear hpc =>
    refine .inr (potential_clear hinv hpc rfl ?_ (fun st => by cases st <;> rfl) ?_)
    · simp [Buffer.getHeader, hinv.index_eq]
    · dsimp only
      split_ifs
      · exact .inl rfl
      · exact .inr rfl

/-- The step is no new call and no idle polling. -/
def Works (s : State cfg) (a : Action cfg) (s' : State cfg) : Prop :=
  s' ≠ s ∧ ∀ w req, a ≠ .invoke w req

theorem potential_invoke {req : Request} (hpc : (s.waves w).pc = .idle) :
    potential ({ s with calls := s.calls + 1 }.setWave w
      { s.waves w with pc := .pop .load, req := req, call := s.calls }) =
    potential s + (8 * cfg.waves + 168) := by
  set s₁ := { s with calls := s.calls + 1 }.setWave w
    { s.waves w with pc := .pop .load, req := req, call := s.calls } with hs₁
  have hself : waveCost s₁ w = waveCost s w + (8 * cfg.waves + 168) := by
    simp [hs₁, waveCost, hpc, Pc.remaining, surcharge, unserved]
  have hother : ∀ v ∈ Finset.univ.erase w, waveCost s₁ v = waveCost s v := by
    intro v hv
    have hwave : s₁.waves v = s.waves v := Function.update_of_ne (Finset.ne_of_mem_erase hv) _ _
    exact Untouched.cost_eq ⟨hwave, fun _ => rfl⟩ fun _ => rfl
  have hsum : ∑ v ∈ Finset.univ.erase w, waveCost s₁ v = ∑ v ∈ Finset.univ.erase w, waveCost s v :=
    Finset.sum_congr rfl hother
  have hbefore : waveCost s w + ∑ v ∈ Finset.univ.erase w, waveCost s v = ∑ v, waveCost s v :=
    Finset.add_sum_erase Finset.univ (waveCost s) (Finset.mem_univ w)
  have hafter : waveCost s₁ w + ∑ v ∈ Finset.univ.erase w, waveCost s₁ v = ∑ v, waveCost s₁ v :=
    Finset.add_sum_erase Finset.univ (waveCost s₁) (Finset.mem_univ w)
  have hrest : s₁.consumer = s.consumer ∧ grabCost s₁ = grabCost s := ⟨rfl, rfl⟩
  rw [potential, potential, hrest.1, hrest.2]
  omega

theorem calls_of_wave (h : WaveCase s w s') : s'.calls = s.calls := by cases h <;> rfl

theorem calls_of_host (h : HostCase s out s') : s'.calls = s.calls := by cases h <;> rfl

theorem step_pays {a : Action cfg} (hs : step s a = some s') (hinv : Inv s L) :
    potential s' + (8 * cfg.waves + 168) * s.calls ≤
      potential s + (8 * cfg.waves + 168) * s'.calls ∧
    (Works s a s' → potential s' + 1 + (8 * cfg.waves + 168) * s.calls ≤
      potential s + (8 * cfg.waves + 168) * s'.calls) := by
  cases step_cases hs with
  | invoke w req hpc =>
    refine ⟨?_, fun hw => absurd rfl (hw.2 w req)⟩
    rw [potential_invoke hpc, State.setWave_calls]
    dsimp only
    rw [Nat.mul_add, Nat.mul_one]
    omega
  | wave w hw =>
    rw [calls_of_wave hw]
    rcases hw.pays hinv with ⟨rfl, -⟩ | hlt
    · exact ⟨le_rfl, fun hworks => absurd rfl hworks.1⟩
    · exact ⟨by omega, fun _ => by omega⟩
  | host out hh =>
    rw [calls_of_host hh]
    rcases hh.pays hinv with ⟨rfl, -⟩ | hlt
    · exact ⟨le_rfl, fun hworks => absurd rfl hworks.1⟩
    · exact ⟨by omega, fun _ => by omega⟩

def Request.Valid (req : Request) : Prop := req.service_id ∈ executableServices ∨ req.Sanitizes

theorem waveStep_isSome (hpc : (s.waves w).pc ≠ .idle) : (waveStep s w).isSome := by
  cases hp : (s.waves w).pc with
  | idle => exact absurd hp hpc
  | pop p =>
    cases p with
    | cas =>
      by_cases htop : s.buf.free_stack = (s.waves w).F <;>
        simp [waveStep, hp, atomic64CAS, htop]
    | _ => simp [waveStep, hp]
  | push st p =>
    cases p with
    | cas =>
      by_cases htop : s.buf.top st = (s.waves w).F
      · cases st <;> simp [waveStep, hp, atomic64CAS, htop]
      · simp [waveStep, hp, atomic64CAS, htop]
    | _ => simp [waveStep, hp]
  | wait =>
    by_cases hflag : getReadyFlag (s.buf.getHeader (s.waves w).packet_ptr).control = 0#32 <;>
      simp [waveStep, hp, hflag]
  | _ => simp [waveStep, hp]

theorem hostStep_isSome (hvalid : ∀ lane : Fin 64, s.consumer.pc = .lane lane →
    s.consumer.service_id ∈ executableServices) : (hostStep s out).isSome := by
  cases hp : s.consumer.pc with
  | lane wi =>
    by_cases hwi : wi < 64
    · have hservice := hvalid ⟨wi, hwi⟩ hp
      by_cases hactive : laneActive s.consumer.activemask wi <;>
        simp [hostStep, hp, hwi, hactive, hservice]
    · simp [hostStep, hp, hwi]
  | idle => by_cases htop : s.buf.ready_stack = 0#64 <;> simp [hostStep, hp, htop]
  | _ => simp [hostStep, hp]

/-- While a call is in progress, a wave or the consumer can go on. -/
theorem exists_work {exec : Service} (hm : Matched exec s) (hinv : Inv s L)
    (hvalid : ∀ w, (s.waves w).pc ≠ .idle → (s.waves w).req.Valid)
    (hbusy : (s.waves w).pc ≠ .idle) : ∃ a s', step s a = some s' ∧ Works s a s' := by
  have hne : ∀ {s' : State cfg}, potential s' + 1 ≤ potential s → s' ≠ s := by
    rintro s' hlt rfl
    omega
  by_cases hspins : ∀ w, (s.waves w).pc ≠ .idle → Spins s w
  · have hhost : (hostStep s fun _ => 0).isSome := by
      apply hostStep_isSome
      intro lane hpc
      obtain ⟨v, hposted, -, -, hsan, hfilled⟩ := hm.at_lane hinv hpc
      have hdata := hm.consumer
      simp only [ConsumerData, hpc] at hdata
      have hactive : (s.waves v).pc ≠ .idle := by
        intro hidle
        simp [hidle, Pc.posted] at hposted
      rw [hdata.2.2.1, hfilled.service]
      exact (hvalid v hactive).resolve_right hsan
    obtain ⟨s', hs⟩ := Option.isSome_iff_exists.mp hhost
    refine ⟨.host fun _ => 0, s', hs, ?_, by simp⟩
    rcases (hostStep_cases hs).pays hinv with ⟨-, hidle, htop⟩ | hlt
    · -- the packet of the waiting wave is on no list
      obtain ⟨hwait, hflag⟩ := hspins w hbusy
      rw [Buffer.getHeader, hinv.index_eq] at hflag
      have hlisted : cfg.index (s.waves w).packet_ptr ∈ L.listed := by
        rw [(hinv.wave w).listed (by simp [hwait, Pc.owns])]
        refine ⟨by simp [hwait, Pc.posted], ?_⟩
        exact (readyFlag_zero_or_one _ _).resolve_left hflag
      have hgrabbed : L.grabbed = [] := by simpa [ConsumerInv, hidle] using hinv.consumer
      have hready : L.ready = [] := by
        apply (hinv.ready.eq_nil_iff fun i hi => ?_).mpr htop
        exact cfg.ptr_ne_zero (hinv.lt i (by simp [Lists.listed, hi])) _
      simp [Lists.listed, hgrabbed, hready] at hlisted
    · exact hne hlt
  · push Not at hspins
    obtain ⟨v, hactive, hnot⟩ := hspins
    obtain ⟨s', hs⟩ := Option.isSome_iff_exists.mp (waveStep_isSome hactive)
    refine ⟨.wave v, s', hs, ?_, by simp⟩
    rcases (waveStep_cases hs).pays hinv with ⟨-, hspin⟩ | hlt
    · exact absurd hspin hnot
    · exact hne hlt

theorem Inv.quiescent (h : Inv s L) (hidle : ∀ w, (s.waves w).pc = .idle) :
    s.consumer.pc = .idle ∧ s.buf.ready_stack = 0#64 ∧
      ∀ i < cfg.num_packets, s.At i .free := by
  have hfree : ∀ i < cfg.num_packets, i ∈ L.free := by
    intro i hi
    by_contra hnot
    obtain ⟨v, howns, -⟩ := h.holding.cover i hi hnot
    simp [hidle v, Pc.owns] at howns
  have hlisted : ∀ i, i ∉ L.listed := fun i hi =>
    h.not_listed_of_mem_free (hfree i (h.lt i (List.mem_append_right _ hi))) hi
  obtain ⟨hready, hgrabbed⟩ := List.append_eq_nil_iff.mp (List.eq_nil_iff_forall_not_mem.mpr hlisted)
  refine ⟨?_, ?_, fun i hi => h.at_free_iff.mpr (hfree i hi)⟩
  · by_contra hpc
    by_cases hnext : s.consumer.pc = .loadNext
    · have hc := h.consumer
      simp only [ConsumerInv, hnext, hgrabbed] at hc
      exact hc.1 hc.2
    · have hmem := h.answered_head ⟨hpc, hnext⟩
      exact hlisted _ hmem
  · have hchain := h.ready
    rw [hready] at hchain
    exact hchain

def AllStarted (s : State cfg) : Prop := ∀ k < s.calls, Started s.waves s.completed k

theorem AllStarted.step {a : Action cfg} (h : AllStarted s) (hs : step s a = some s') :
    AllStarted s' := by
  intro k hk
  cases step_cases hs with
  | invoke w req hpc =>
    rcases Nat.lt_succ_iff_lt_or_eq.mp hk with hk | rfl
    · rcases h k hk with hc | ⟨v, hv, hcall⟩
      · exact .inl hc
      · have hvw : v ≠ w := by
          rintro rfl
          exact hv hpc
        refine .inr ⟨v, ?_, ?_⟩ <;> simpa [Function.update_of_ne hvw]
    · exact .inr ⟨w, by simp, by simp⟩
  | wave w hw =>
    rw [calls_of_wave hw] at hk
    rcases h k hk with ⟨c, hc, hck⟩ | ⟨v, hv, hvk⟩
    · refine .inl ⟨c, ?_, hck⟩
      rcases hw.completed with he | ⟨retval, he⟩ <;> rw [he]
      · exact hc
      · exact List.mem_cons_of_mem _ hc
    · rcases hw.returns v with ⟨hpc, -⟩ | ⟨-, -, hmem⟩
      · exact .inr ⟨v, mt hpc.mp hv, by rw [hw.sameCalls.call, hvk]⟩
      · exact .inl ⟨_, hmem, hvk⟩
  | host out hh =>
    have hsame : s'.waves = s.waves ∧ s'.completed = s.completed := by
      cases hh <;> exact ⟨rfl, rfl⟩
    rw [hsame.1, hsame.2]
    exact h k (calls_of_host hh ▸ hk)

theorem AllStarted.completed (h : AllStarted s) (hidle : ∀ w, (s.waves w).pc = .idle) :
    ∀ k < s.calls, ∃ c ∈ s.completed, c.call = k := by
  intro k hk
  rcases h k hk with hc | ⟨w, hw, -⟩
  · exact hc
  · exact absurd (hidle w) hw

def AllValid (s : State cfg) : Prop := ∀ w, (s.waves w).pc ≠ .idle → (s.waves w).req.Valid

def ValidCall : Action cfg → Prop
  | .invoke _ req => req.Valid
  | _ => True

theorem AllValid.step {a : Action cfg} (h : AllValid s) (hok : ValidCall a)
    (hs : step s a = some s') : AllValid s' := by
  intro v hv
  cases step_cases hs with
  | invoke w req hpc =>
    by_cases hvw : v = w
    · subst hvw
      rw [State.setWave_waves, Function.update_self]
      exact hok
    · simp only [State.setWave_waves, Function.update_of_ne hvw] at hv ⊢
      exact h v hv
  | wave w hw =>
    obtain ⟨-, -, -, hreq, hactive⟩ := hw.sameCalls
    rw [hreq]
    exact h v (hactive v hv)
  | host out hh =>
    have hwaves : s'.waves = s.waves := by cases hh <;> rfl
    rw [hwaves] at hv ⊢
    exact h v hv

/-- The assumptions on runs: the tag assumption, and calls of services that the host has. -/
def TaggedValid (s : State cfg) (a : Action cfg) : Prop := NoTagWrap s ∧ ValidCall a

/-- In every run the steps of all waves and of the consumer but idle polling are at most
`8 * waves + 168` for each call, and a state in which none of them is enabled has completed all
calls: nothing is left on the ready stack and every packet is back on the free stack. -/
theorem calls_complete (cfg : Config) (raw : Buffer) (s : State cfg) (n : ℕ)
    (h : ChargedRun step TaggedValid Works (State.init cfg raw) s n) :
    n ≤ (8 * cfg.waves + 168) * s.calls ∧
    ((∀ a s', step s a = some s' → ¬ Works s a s') →
      (∀ k < s.calls, ∃ c ∈ s.completed, c.call = k) ∧ (∀ w, (s.waves w).pc = .idle) ∧
      s.consumer.pc = .idle ∧ s.buf.ready_stack = 0#64 ∧ ∀ i < cfg.num_packets, s.At i .free) := by
  have hreaches : ∀ t, Reachable step TaggedValid (State.init cfg raw) t → Reaches raw t :=
    fun t ht => ht.weaken fun _ _ => And.left
  refine ⟨?_, fun hstop => ?_⟩
  · have hbudget := h.le_budget potential (fun s => (8 * cfg.waves + 168) * s.calls)
      (by simp [potential, waveCost, State.init, initBuffer, Pc.remaining, surcharge, unserved,
        HostPc.remaining, grabCost])
      (fun t a t' ht _ hs => ?_) (fun t a t' ht _ hs hworks => ?_)
    · omega
    · obtain ⟨L, hinv⟩ := (hreaches t ht).inv
      exact (step_pays hs hinv).1
    · obtain ⟨L, hinv⟩ := (hreaches t ht).inv
      exact (step_pays hs hinv).2 hworks
  · have hserving : ReachesServing anyService raw s :=
      h.reachable.weaken fun _ a hok => ⟨hok.1, serves_anyService _ a⟩
    obtain ⟨L, hinv⟩ := (hreaches s h.reachable).inv
    have hstarted : AllStarted s := h.reachable.invariant
      (fun k hk => absurd hk (Nat.not_lt_zero k)) fun _ _ _ ht _ hs => ht.step hs
    have hvalid : AllValid s := h.reachable.invariant
      (fun w hw => absurd rfl hw) fun _ _ _ ht hok hs => ht.step hok.2 hs
    have hidle : ∀ w, (s.waves w).pc = .idle := by
      intro w
      by_contra hbusy
      obtain ⟨a, s', hs, hworks⟩ := exists_work hserving.matched hinv hvalid hbusy
      exact hstop a s' hs hworks
    exact ⟨hstarted.completed hidle, hidle, hinv.quiescent hidle⟩

def checkTagged (s : State cfg) (a : Action cfg) : Bool :=
  decide (NoTagWrap s) && match a with
    | .invoke _ req => decide (req.service_id ∈ executableServices)
    | _ => true

theorem of_checkTagged (s : State cfg) (a : Action cfg) (h : checkTagged s a = true) :
    TaggedValid s a := by
  obtain ⟨hwrap, h⟩ := Bool.and_eq_true_iff.mp h
  refine ⟨of_decide_eq_true hwrap, ?_⟩
  cases a with
  | invoke w req => exact .inl (of_decide_eq_true h)
  | _ => trivial

theorem wholeCall_tagged : (runChecked step checkTagged (State.init oneWave zeroed)
    (wholeCall twoLanes (fun _ => 8) 65)).map (fun s => (s.calls, s.completed.length)) =
      some (1, 1) := by
  decide +kernel

theorem calls_complete_wholeCall : ∃ (s : State oneWave) (n : ℕ),
    ChargedRun step TaggedValid Works (State.init oneWave zeroed) s n ∧
    s.completed.length = 1 ∧ n ≤ 176 := by
  obtain ⟨s, hs, hend⟩ := Option.map_eq_some_iff.mp wholeCall_tagged
  obtain ⟨hcalls, hlength⟩ := Prod.mk.inj hend
  have hreach : Reachable step TaggedValid (State.init oneWave zeroed) s :=
    Reachable.of_runChecked of_checkTagged _ _ hs
  obtain ⟨n, hn⟩ := hreach.exists_charged Works
  have hbound := (calls_complete oneWave zeroed s n hn).1
  rw [hcalls] at hbound
  exact ⟨s, n, hn, hlength, hbound⟩

end Aomp.Hostexec
