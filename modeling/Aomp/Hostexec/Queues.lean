import Aomp.Hostexec.LockFree
import Aomp.Hostexec.WakeUp

/-!
# Many queues, one service thread

The buffers of all queues share the service thread, its lock and the doorbell. What a queue
and the thread do to one buffer is nevertheless a run of the protocol for that buffer alone,
so all that holds there holds for each queue of a process. Where the thread sleeps on an
unchanged doorbell and every wave is outside of a call or waits for its answer, no call is
left in any queue.
-/
namespace Aomp.Hostexec

open Foundations

section

variable {cfg : Config} {s : State cfg}

abbrev State.setDoorbell (s : State cfg) (d : Word) : State cfg :=
  s.setBuf { s.buf with doorbell := d }

theorem waveStep_setDoorbell (s : State cfg) (d : Word) (w : Fin cfg.waves) :
    waveStep (s.setDoorbell d) w = (waveStep s w).map fun t =>
      t.setDoorbell (if (s.waves w).pc = .ring then d + 1 else d) := by
  have hheader : ∀ p, (s.setDoorbell d).buf.getHeader p = s.buf.getHeader p := fun _ => rfl
  have htop : ∀ st, (s.setDoorbell d).buf.top st = s.buf.top st := fun st => by cases st <;> rfl
  unfold waveStep
  cases hpc : (s.waves w).pc with
  | wait =>
    by_cases hflag : getReadyFlag (s.buf.getHeader (s.waves w).packet_ptr).control = 0#32
    · simp only [State.setBuf_waves, hpc, hheader, if_pos hflag]
      rfl
    · simp only [State.setBuf_waves, hpc, hheader, if_neg hflag]
      rfl
  | pop at' =>
    cases at' with
    | cas =>
      by_cases hcas : (atomic64CAS s.buf.free_stack (s.waves w).F (s.waves w).N).ok
      · simp only [State.setBuf_waves, State.setBuf_buf, hpc, if_pos hcas]
        rfl
      · simp only [State.setBuf_waves, State.setBuf_buf, hpc, if_neg hcas]
        rfl
    | load | next =>
      simp only [State.setBuf_waves, hpc]
      rfl
  | push st at' =>
    cases at' with
    | cas =>
      have hsize : (s.setDoorbell d).buf.index_size = s.buf.index_size := rfl
      by_cases hcas : (atomic64CAS (s.buf.top st) (s.waves w).F
          ((s.waves w).pushPtr s.buf.index_size st)).ok
      · simp only [State.setBuf_waves, hsize, htop, hpc, if_pos hcas]
        cases st <;> rfl
      · simp only [State.setBuf_waves, hsize, htop, hpc, if_neg hcas]
        cases st <;> rfl
    | load | link =>
      simp only [State.setBuf_waves, htop, hpc]
      cases st <;> rfl
  | _ =>
    simp only [State.setBuf_waves, hpc]
    rfl

theorem hostStep_setDoorbell (s : State cfg) (d : Word) (out : Slot) :
    hostStep (s.setDoorbell d) out = (hostStep s out).map fun t => t.setDoorbell d := by
  have hheader : ∀ p, (s.setDoorbell d).buf.getHeader p = s.buf.getHeader p := fun _ => rfl
  unfold hostStep
  cases hpc : s.consumer.pc with
  | idle =>
    by_cases hF : s.buf.ready_stack = 0#64
    · simp only [State.setBuf_consumer, State.setBuf_buf, hpc, if_pos hF]
      rfl
    · simp only [State.setBuf_consumer, State.setBuf_buf, hpc, if_neg hF]
      rfl
  | lane wi =>
    by_cases hwi : wi < 64
    · by_cases hactive : laneActive s.consumer.activemask wi
      · by_cases hservice : s.consumer.service_id ∈ executableServices
        · simp only [State.setBuf_consumer, hpc, dif_pos hwi, if_pos hactive, if_pos hservice]
          rfl
        · simp only [State.setBuf_consumer, hpc, dif_pos hwi, if_pos hactive, if_neg hservice]
          rfl
      · simp only [State.setBuf_consumer, hpc, dif_pos hwi, if_neg hactive]
        rfl
    · simp only [State.setBuf_consumer, hpc, dif_neg hwi]
      rfl
  | _ =>
    simp only [State.setBuf_consumer, hpc, hheader]
    rfl

theorem step_setDoorbell {d : Word} {a : Action cfg} {t : State cfg}
    (h : step (s.setDoorbell d) a = some t) :
    ∃ t' d', step s a = some t' ∧ t = t'.setDoorbell d' := by
  cases a with
  | invoke w req =>
    obtain ⟨hpc, rfl⟩ := Option.ite_some_none_eq_some.mp h
    exact ⟨_, d, if_pos hpc, rfl⟩
  | wave w =>
    rw [step, waveStep_setDoorbell] at h
    obtain ⟨t', ht', rfl⟩ := Option.map_eq_some_iff.mp h
    exact ⟨t', _, ht', rfl⟩
  | host out =>
    rw [step, hostStep_setDoorbell] at h
    obtain ⟨t', ht', rfl⟩ := Option.map_eq_some_iff.mp h
    exact ⟨t', _, ht', rfl⟩

end

variable {ι : Type} [DecidableEq ι] {cfg : ι → Config} {p p' : Process cfg} {exec : Service}
  {raw : ι → Buffer}

namespace Process

/-- The services that the thread runs respect `exec`. -/
def Serves (exec : Service) (p : Process cfg) : ProcessAction cfg → Prop
  | .host out => ∀ b rest, p.loop = .scanning (b :: rest) → Hostexec.Serves exec (p.memory b) (.host out)
  | _ => True

/-- Runs in which no tag of a free stack comes round during a `pop`, with services that
respect `exec`. -/
def ReachesServing (exec : Service) (raw : ι → Buffer) (p : Process cfg) : Prop :=
  Reachable processStep (fun p a => (∀ b, NoTagWrap (p.memory b)) ∧ p.Serves exec a) (init cfg raw) p

/-- But for the doorbell, the buffer is in a state of the protocol for one buffer. -/
def Alone (exec : Service) (p : Process cfg) (b : ι) : Prop :=
  ∃ raw s d, Hostexec.ReachesServing exec raw s ∧ p.memory b = State.setDoorbell s d

omit [DecidableEq ι] in
theorem Alone.congr {b : ι} (h : p.Alone exec b) (hmemory : p'.memory b = p.memory b) :
    p'.Alone exec b := by
  obtain ⟨raw, s, d, hs, hm⟩ := h
  exact ⟨raw, s, d, hs, hmemory.trans hm⟩

omit [DecidableEq ι] in
theorem Alone.step {b : ι} {t : State (cfg b)} {a : Action (cfg b)} (h : p.Alone exec b)
    (hwrap : NoTagWrap (p.memory b)) (hserves : Hostexec.Serves exec (p.memory b) a)
    (ht : Hostexec.step (p.shared b) a = some t) (hmemory : p'.memory b = t) :
    p'.Alone exec b := by
  obtain ⟨raw, s, d, hs, hm⟩ := h
  have hshared : p.shared b = s.setDoorbell p.doorbell := by
    rw [shared, hm]
    rfl
  rw [hm] at hwrap hserves
  have hserves : Hostexec.Serves exec s a := by
    cases a <;> exact hserves
  rw [hshared] at ht
  obtain ⟨t', d', ht', rfl⟩ := step_setDoorbell ht
  exact ⟨raw, t', d', hs.tail ⟨hwrap, hserves⟩ ht', hmemory⟩

theorem setMemory_memory_of_ne {b c : ι} {t : State (cfg b)} (hc : c ≠ b) :
    (p.setMemory b t).memory c = p.memory c := Function.update_of_ne hc _ _

/-- The step of a process moves one buffer by a step of its own, or none. -/
theorem Alone.processStep {a : ProcessAction cfg} (h : ∀ b, p.Alone exec b)
    (hwrap : ∀ b, NoTagWrap (p.memory b)) (hserves : p.Serves exec a)
    (hs : processStep p a = some p') (c : ι) : p'.Alone exec c := by
  cases a with
  | assign b raw =>
    obtain ⟨-, hs⟩ := Option.ite_none_right_eq_some.mp hs
    split_ifs at hs with hb hlock
    · exact Option.some.inj hs ▸ h c
    · obtain rfl := Option.some.inj hs
      by_cases hc : c = b
      · subst hc
        exact ⟨raw, State.init (cfg c) raw, _, .refl, Function.update_self ..⟩
      · exact (h c).congr (Function.update_of_ne hc _ _)
  | invoke b w req =>
    obtain ⟨-, hs⟩ := Option.ite_none_right_eq_some.mp hs
    obtain ⟨t, ht, rfl⟩ := Option.map_eq_some_iff.mp hs
    by_cases hc : c = b
    · subst hc
      exact (h c).step (a := .invoke w req) (hwrap c) trivial ht (Function.update_self ..)
    · exact (h c).congr (setMemory_memory_of_ne hc)
  | wave b w =>
    obtain ⟨-, hs⟩ := Option.ite_none_right_eq_some.mp hs
    obtain ⟨t, ht, rfl⟩ := Option.map_eq_some_iff.mp hs
    by_cases hc : c = b
    · subst hc
      exact (h c).step (a := .wave w) (hwrap c) trivial ht (Function.update_self ..)
    · exact (h c).congr (setMemory_memory_of_ne hc)
  | wait =>
    obtain ⟨-, hs⟩ := Option.ite_none_right_eq_some.mp hs
    exact (h c).congr (by rw [← Option.some.inj hs])
  | lock order =>
    obtain ⟨-, hs⟩ := Option.ite_none_right_eq_some.mp hs
    exact (h c).congr (by rw [← Option.some.inj hs])
  | host out =>
    cases scanStep_cases hs with
    | unlock | erase => exact (h c).congr rfl
    | serve b rest t hloop hkept ht =>
      by_cases hc : c = b
      · subst hc
        exact (h c).step (a := .host out) (hwrap c) (hserves c rest hloop) ht
          (Function.update_self ..)
      · exact (h c).congr (setMemory_memory_of_ne hc)
  | terminate => exact (h c).congr (by rw [(terminateStep_memory hs).1])

theorem ReachesServing.alone (h : p.ReachesServing exec raw) (b : ι) : p.Alone exec b :=
  Reachable.invariant (P := fun p => ∀ b, Alone exec p b) h
    (fun b => ⟨raw b, _, _, .refl, rfl⟩) (fun _ _ _ hp hok hs => Alone.processStep hp hok.1 hok.2 hs) b

/-- The service thread sleeps on an unchanged doorbell, and every wave is outside of a call or
sees READY set in the packet that it waits for. -/
structure AtRest (p : Process cfg) : Prop where
  waiting : p.loop = .waiting
  bell : p.doorbell = p.signal_value
  waves : ∀ b w, ((p.memory b).waves w).pc = .idle ∨ ((p.memory b).waves w).pc = .wait ∧
    getReadyFlag ((p.memory b).buf.getHeader ((p.memory b).waves w).packet_ptr).control ≠ 0#32

omit [DecidableEq ι] in
/-- No packet is on a ready stack or with the thread, so no wave waits for one. -/
theorem AtRest.idle (h : p.AtRest) (ha : p.Announced) (hstacked : p.Stacked) (b : ι) :
    ∀ w, ((p.memory b).waves w).pc = .idle := by
  have hposted : ∀ w ∈ p.posted b, ((p.memory b).waves w).pc = .ring := by
    rcases ha.heard b with htodo | hrung | hposted
    · simp [Todo, h.waiting] at htodo
    · exact absurd (ha.rung_eq_zero h.bell) hrung
    · exact hposted
  obtain ⟨L, hinv, hposts⟩ := hstacked b
  have hready : L.ready = [] := by
    rw [List.eq_nil_iff_forall_not_mem]
    intro i hi
    obtain ⟨w, hw, -⟩ := hposts.cover i hi
    have hring := hposted w hw
    rcases h.waves b w with hidle | ⟨hwait, -⟩
    · rw [hring] at hidle
      cases hidle
    · rw [hring] at hwait
      cases hwait
  have hgrabbed : L.grabbed = [] := by
    have hconsumer := ha.idle b (by simp [h.waiting])
    simpa [ConsumerInv, hconsumer] using hinv.consumer
  intro w
  rcases h.waves b w with hidle | ⟨hwait, hflag⟩
  · exact hidle
  · -- the packet of a waiting wave with READY set is on one of the two lists
    have howns : ((p.memory b).waves w).pc.owns := by simp [hwait, Pc.owns]
    rw [Buffer.getHeader, hinv.index_eq] at hflag
    have hlisted := ((hinv.wave w).listed howns).mpr
      ⟨by simp [hwait, Pc.posted], (readyFlag_zero_or_one _ _).resolve_left hflag⟩
    simp [Lists.listed, hready, hgrabbed] at hlisted

theorem ReachesServing.tagged (h : p.ReachesServing exec raw) : p.ReachesTagged raw :=
  Reachable.weaken h fun _ _ => And.left

omit [DecidableEq ι] in
theorem Alone.answered {b : ι} (h : p.Alone exec b) {c : Completed}
    (hc : c ∈ (p.memory b).completed) : Answered (cfg b).device_id c
      ((p.memory b).runsOf c.call) ((p.memory b).reportsOf c.call) := by
  obtain ⟨raw, s, d, hs, hm⟩ := h
  rw [hm] at hc ⊢
  exact hs.matched.answered c hc

omit [DecidableEq ι] in
theorem Alone.allStarted {b : ι} (h : p.Alone exec b) : AllStarted (p.memory b) := by
  obtain ⟨raw, s, d, hs, hm⟩ := h
  have hstarted : AllStarted s := hs.invariant (fun k hk => absurd hk (Nat.not_lt_zero k))
    fun _ _ _ ht _ hs => ht.step hs
  rw [hm]
  exact hstarted

/-- In every run of a process, with termination at any time, each buffer is in a state that the
protocol for one buffer reaches alone, and every completed call of every queue was answered
from the runs for its own lanes. In a run without termination and with no doorbell that comes
round between two waits, a process at rest has completed every call of every queue: nothing is
on a ready stack and every packet is back on its free stack. -/
theorem queues_served (cfg : ι → Config) (exec : Service) (raw : ι → Buffer) (p : Process cfg)
    (h : p.ReachesServing exec raw) :
    (∀ b, ∃ raw s d, Hostexec.ReachesServing exec raw s ∧ p.memory b = State.setDoorbell s d) ∧
    (∀ b, ∀ c ∈ (p.memory b).completed, Answered (cfg b).device_id c
      ((p.memory b).runsOf c.call) ((p.memory b).reportsOf c.call)) ∧
    (p.Reaches raw → p.AtRest → ∀ b,
      (∀ k < (p.memory b).calls, ∃ c ∈ (p.memory b).completed, c.call = k) ∧
      (∀ w, ((p.memory b).waves w).pc = .idle) ∧ (p.memory b).buf.ready_stack = 0#64 ∧
      ∀ i < (cfg b).num_packets, (p.memory b).At i .free) := by
  refine ⟨h.alone, fun b c hc => (h.alone b).answered hc, fun hreaches hrest b => ?_⟩
  have hstacked := h.tagged.stacked
  have hidle := hrest.idle hreaches.announced hstacked b
  obtain ⟨L, hinv, -⟩ := hstacked b
  obtain ⟨-, hready, hfree⟩ := hinv.quiescent hidle
  exact ⟨(h.alone b).allStarted.completed hidle, hidle, hready, hfree⟩

def oneServed : List (ProcessAction twoQueues) :=
  let req : Request := ⟨HOSTEXEC_SID_VOID, 5, fun _ _ => 7, twoLanes_active⟩
  [.assign 0 zeroed, .assign 1 zeroed, .invoke 0 1 req] ++ List.replicate 16 (.wave 0 1) ++
    [.wait, .lock [1, 0]] ++ List.replicate 72 (.host fun _ => 8) ++
    List.replicate 12 (.wave 0 1)

def checkServing (p : Process twoQueues) (a : ProcessAction twoQueues) : Bool :=
  decide (∀ b, NoTagWrap (p.memory b)) && decide (p.NoBellWrap a) && match a with
    | .host out => out 0 == 8
    | _ => true

theorem of_checkServing (p : Process twoQueues) (a : ProcessAction twoQueues)
    (h : checkServing p a = true) :
    ((∀ b, NoTagWrap (p.memory b)) ∧ p.Serves returnsEight a) ∧ p.NoBellWrap a := by
  simp only [checkServing, Bool.and_eq_true, decide_eq_true_eq] at h
  obtain ⟨⟨hwrap, hbell⟩, hout⟩ := h
  refine ⟨⟨hwrap, ?_⟩, hbell⟩
  cases a with
  | host out =>
    intro b rest _ lane _ _
    exact eq_of_beq hout
  | _ => trivial

theorem oneServed_rest : (runChecked processStep checkServing (init twoQueues fun _ => zeroed)
    oneServed).map (fun p => (decide (p.loop = .waiting), decide (p.doorbell = p.signal_value),
      decide (∀ b w, ((p.memory b).waves w).pc = .idle), (p.memory 0).calls)) =
        some (true, true, true, 1) := by
  decide +kernel

theorem queues_served_oneServed : ∃ p : Process twoQueues,
    p.ReachesServing returnsEight (fun _ => zeroed) ∧ (p.memory 0).calls = 1 ∧
    (∀ b, ∀ c ∈ (p.memory b).completed, Answered twoWaves.device_id c
      ((p.memory b).runsOf c.call) ((p.memory b).reportsOf c.call)) ∧
    ∃ c ∈ (p.memory 0).completed, c.call = 0 := by
  obtain ⟨p, hp, hend⟩ := Option.map_eq_some_iff.mp oneServed_rest
  simp only [Prod.mk.injEq, decide_eq_true_eq] at hend
  obtain ⟨hloop, hbell, hidle, hcalls⟩ := hend
  have hrun : Reachable processStep (fun p a =>
      ((∀ b, NoTagWrap (p.memory b)) ∧ p.Serves returnsEight a) ∧ p.NoBellWrap a)
      (init twoQueues fun _ => zeroed) p := Reachable.of_runChecked of_checkServing _ _ hp
  have hserving : p.ReachesServing returnsEight fun _ => zeroed := hrun.weaken fun _ _ => And.left
  have hreaches : p.Reaches fun _ => zeroed := hrun.weaken fun _ _ => And.right
  obtain ⟨-, hanswered, hrest⟩ := queues_served twoQueues returnsEight _ p hserving
  have hcalled := (hrest hreaches ⟨hloop, hbell, fun b w => .inl (hidle b w)⟩ 0).1 0
  exact ⟨p, hserving, hcalls, hanswered, hcalled (by rw [hcalls]; exact Nat.one_pos)⟩

end Process

end Aomp.Hostexec
