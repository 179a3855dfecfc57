import Aomp.Hostexec.Machine

/-!
# What a step can do

`WaveCase` and `HostCase` list the successors of a step, one constructor for each
branch of the source with its guard. Every invariant is proved by cases on these and
never unfolds the step functions.
-/
namespace Aomp.Hostexec

open Foundations

variable {cfg : Config} {s s' : State cfg} {w : Fin cfg.waves} {out : Slot}

/-- The successors of a wave's step. -/
inductive WaveCase (s : State cfg) (w : Fin cfg.waves) : State cfg → Prop
  | popLoad (hpc : (s.waves w).pc = .pop .load) :
      WaveCase s w (s.setWave w { s.waves w with
        pc := .pop .next, F := s.buf.free_stack, seen := s.recycled (s.buf.index s.buf.free_stack) })
  | popNext (hpc : (s.waves w).pc = .pop .next) :
      WaveCase s w (s.setWave w { s.waves w with
        pc := .pop .cas, N := (s.buf.getHeader (s.waves w).F).next })
  | popTake (hpc : (s.waves w).pc = .pop .cas) (htop : s.buf.free_stack = (s.waves w).F) :
      WaveCase s w ((s.setBuf (s.buf.setTop .free (s.waves w).N)).setWave w { s.waves w with
        pc := .fillHeader, packet_ptr := (s.waves w).F })
  | popRetry (hpc : (s.waves w).pc = .pop .cas) (htop : s.buf.free_stack ≠ (s.waves w).F) :
      WaveCase s w (s.setWave w { s.waves w with
        pc := .pop .next, F := s.buf.free_stack, seen := s.recycled (s.buf.index s.buf.free_stack) })
  | fillHeader (hpc : (s.waves w).pc = .fillHeader) :
      WaveCase s w ({ s with
        buf := s.buf.setHeader (s.waves w).packet_ptr { s.buf.getHeader (s.waves w).packet_ptr with
          service := (s.waves w).req.service_id
          activemask := (s.waves w).req.activemask
          control := setReadyFlag 0#32 }
        callOf := Function.update s.callOf (s.buf.index (s.waves w).packet_ptr) (s.waves w).call
        }.setWave w { s.waves w with pc := .fillWord 0 })
  | fillWord (j : ℕ) (hpc : (s.waves w).pc = .fillWord j) :
      WaveCase s w ((s.setBuf (s.buf.setPayload (s.waves w).packet_ptr
        ((s.buf.getPayload (s.waves w).packet_ptr).copyWord
          (s.waves w).req.args (s.waves w).req.activemask j))).setWave w { s.waves w with
            pc := if j + 1 < 8 then .fillWord (j + 1) else .push .ready .load })
  | pushLoad (st : StackId) (hpc : (s.waves w).pc = .push st .load) :
      WaveCase s w (s.setWave w { s.waves w with pc := .push st .link, F := s.buf.top st })
  | pushLink (st : StackId) (hpc : (s.waves w).pc = .push st .link) :
      WaveCase s w ((s.setBuf (s.buf.setHeader ((s.waves w).pushPtr s.buf.index_size st)
        { s.buf.getHeader ((s.waves w).pushPtr s.buf.index_size st) with
          next := (s.waves w).F })).setWave w { s.waves w with pc := .push st .cas })
  | pushRetry (st : StackId) (hpc : (s.waves w).pc = .push st .cas)
      (htop : s.buf.top st ≠ (s.waves w).F) :
      WaveCase s w (s.setWave w { s.waves w with pc := .push st .link, F := s.buf.top st })
  | pushReady (hpc : (s.waves w).pc = .push .ready .cas)
      (htop : s.buf.ready_stack = (s.waves w).F) :
      WaveCase s w ((s.setBuf (s.buf.setTop .ready (s.waves w).packet_ptr)).setWave w
        { s.waves w with pc := .ring })
  | pushFree (hpc : (s.waves w).pc = .push .free .cas)
      (htop : s.buf.free_stack = (s.waves w).F) :
      WaveCase s w ({ s.setBuf (s.buf.setTop .free
          (incPtrTag (s.waves w).packet_ptr s.buf.index_size)) with
        recycled := Function.update s.recycled (s.buf.index (s.waves w).packet_ptr)
          (s.recycled (s.buf.index (s.waves w).packet_ptr) + 1)
        completed := ⟨(s.waves w).call, (s.waves w).req, (s.waves w).retval⟩ :: s.completed
        }.setWave w { s.waves w with pc := .idle })
  | ring (hpc : (s.waves w).pc = .ring) :
      WaveCase s w ((s.setBuf { s.buf with doorbell := s.buf.doorbell + 1 }).setWave w
        { s.waves w with pc := .wait })
  | answered (hpc : (s.waves w).pc = .wait)
      (hflag : getReadyFlag (s.buf.getHeader (s.waves w).packet_ptr).control = 0#32) :
      WaveCase s w (s.setWave w { s.waves w with pc := .read 0 })
  | spin (hpc : (s.waves w).pc = .wait)
      (hflag : getReadyFlag (s.buf.getHeader (s.waves w).packet_ptr).control ≠ 0#32) :
      WaveCase s w s
  | read (j : ℕ) (hpc : (s.waves w).pc = .read j) :
      WaveCase s w (s.setWave w { s.waves w with
        retval := (s.waves w).retval.copyWord (s.buf.getPayload (s.waves w).packet_ptr)
          (s.waves w).req.activemask j
        pc := if j + 1 < 8 then .read (j + 1) else .push .free .load })

theorem waveStep_cases (h : waveStep s w = some s') : WaveCase s w s' := by
  unfold waveStep at h
  cases hpc : (s.waves w).pc with
  | idle => simp [hpc] at h
  | pop p =>
    cases p with
    | load =>
      simp only [hpc, Option.some.injEq] at h
      exact h ▸ .popLoad hpc
    | next =>
      simp only [hpc, Option.some.injEq] at h
      exact h ▸ .popNext hpc
    | cas =>
      by_cases htop : s.buf.free_stack = (s.waves w).F
      · simp only [hpc, atomic64CAS, htop, if_true, Option.some.injEq] at h
        exact h ▸ .popTake hpc htop
      · simp only [hpc, atomic64CAS, htop, if_false, Bool.false_eq_true, Option.some.injEq] at h
        exact h ▸ .popRetry hpc htop
  | fillHeader =>
    simp only [hpc, Option.some.injEq] at h
    exact h ▸ .fillHeader hpc
  | fillWord j =>
    simp only [hpc, Option.some.injEq] at h
    exact h ▸ .fillWord j hpc
  | push st p =>
    cases p with
    | load =>
      simp only [hpc, Option.some.injEq] at h
      exact h ▸ .pushLoad st hpc
    | link =>
      simp only [hpc, Option.some.injEq] at h
      exact h ▸ .pushLink st hpc
    | cas =>
      by_cases htop : s.buf.top st = (s.waves w).F
      · cases st with
        | ready =>
          simp only [hpc, atomic64CAS, htop, if_true, Option.some.injEq, Wave.pushPtr] at h
          exact h ▸ .pushReady hpc htop
        | free =>
          simp only [hpc, atomic64CAS, htop, if_true, Option.some.injEq, Wave.pushPtr] at h
          exact h ▸ .pushFree hpc htop
      · simp only [hpc, atomic64CAS, htop, if_false, Bool.false_eq_true, Option.some.injEq] at h
        exact h ▸ .pushRetry st hpc htop
  | ring =>
    simp only [hpc, Option.some.injEq] at h
    exact h ▸ .ring hpc
  | wait =>
    by_cases hflag : getReadyFlag (s.buf.getHeader (s.waves w).packet_ptr).control = 0#32
    · simp only [hpc, hflag, if_true, Option.some.injEq] at h
      exact h ▸ .answered hpc hflag
    · simp only [hpc, hflag, if_false, Option.some.injEq] at h
      exact h ▸ .spin hpc hflag
  | read j =>
    simp only [hpc, Option.some.injEq] at h
    exact h ▸ .read j hpc

/-- The successors of the consumer's step. -/
inductive HostCase (s : State cfg) (out : Slot) : State cfg → Prop
  | grabNone (hpc : s.consumer.pc = .idle) (htop : s.buf.ready_stack = 0#64) :
      HostCase s out (s.setBuf (s.buf.setTop .ready 0#64))
  | grab (hpc : s.consumer.pc = .idle) (htop : s.buf.ready_stack ≠ 0#64) :
      HostCase s out { s.setBuf (s.buf.setTop .ready 0#64) with
        consumer := { s.consumer with pc := .loadNext, iter := s.buf.ready_stack } }
  | loadNext (hpc : s.consumer.pc = .loadNext) :
      HostCase s out { s with
        consumer := { s.consumer with
          pc := .loadMask, next := (s.buf.getHeader s.consumer.iter).next } }
  | loadMask (hpc : s.consumer.pc = .loadMask) :
      HostCase s out { s with
        consumer := { s.consumer with
          pc := .loadService, activemask := (s.buf.getHeader s.consumer.iter).activemask } }
  | loadService (hpc : s.consumer.pc = .loadService) :
      HostCase s out { s with
        consumer := { s.consumer with
          pc := if (s.buf.getHeader s.consumer.iter).service = HOSTEXEC_SID_SANITIZER then .sanitize
            else .lane 0
          service_id := (s.buf.getHeader s.consumer.iter).service } }
  | sanitize (hpc : s.consumer.pc = .sanitize) :
      HostCase s out { s with
        consumer := { s.consumer with pc := .clear }
        reports := ⟨s.callOf (s.buf.index s.consumer.iter), s.consumer.activemask, s.buf.device_id,
          s.buf.getPayload s.consumer.iter⟩ :: s.reports }
  | execute (lane : Fin 64) (hpc : s.consumer.pc = .lane lane)
      (hactive : laneActive s.consumer.activemask lane)
      (hservice : s.consumer.service_id ∈ executableServices) :
      HostCase s out { s with
        consumer := { s.consumer with pc := .lane (lane + 1) }
        buf := s.buf.setPayload s.consumer.iter
          (Function.update (s.buf.getPayload s.consumer.iter) lane out)
        log := s.log ++ [⟨s.callOf (s.buf.index s.consumer.iter), lane, s.consumer.service_id,
          s.buf.device_id, s.buf.getPayload s.consumer.iter lane, out⟩] }
  | skip (lane : Fin 64) (hpc : s.consumer.pc = .lane lane)
      (hactive : ¬ laneActive s.consumer.activemask lane) :
      HostCase s out { s with consumer := { s.consumer with pc := .lane (lane + 1) } }
  | lanesDone (wi : ℕ) (hpc : s.consumer.pc = .lane wi) (hwi : 64 ≤ wi) :
      HostCase s out { s with consumer := { s.consumer with pc := .clear } }
  | clear (hpc : s.consumer.pc = .clear) :
      HostCase s out { s with
        buf := s.buf.setHeader s.consumer.iter { s.buf.getHeader s.consumer.iter with
          control := resetReadyFlag (s.buf.getHeader s.consumer.iter).control }
        consumer := { s.consumer with
          iter := s.consumer.next
          pc := if s.consumer.next = 0#64 then .idle else .loadNext } }

theorem hostStep_cases (h : hostStep s out = some s') : HostCase s out s' := by
  unfold hostStep at h
  cases hpc : s.consumer.pc with
  | idle =>
    by_cases htop : s.buf.ready_stack = 0#64
    · simp only [hpc, htop, if_true, Option.some.injEq] at h
      exact h ▸ .grabNone hpc htop
    · simp only [hpc, htop, if_false, Option.some.injEq] at h
      exact h ▸ .grab hpc htop
  | loadNext =>
    simp only [hpc, Option.some.injEq] at h
    exact h ▸ .loadNext hpc
  | loadMask =>
    simp only [hpc, Option.some.injEq] at h
    exact h ▸ .loadMask hpc
  | loadService =>
    simp only [hpc, Option.some.injEq] at h
    exact h ▸ .loadService hpc
  | sanitize =>
    simp only [hpc, Option.some.injEq] at h
    exact h ▸ .sanitize hpc
  | lane wi =>
    simp only [hpc] at h
    split_ifs at h with hwi hactive hservice
    · exact Option.some.inj h ▸ .execute ⟨wi, hwi⟩ hpc hactive hservice
    · exact Option.some.inj h ▸ .skip ⟨wi, hwi⟩ hpc hactive
    · exact Option.some.inj h ▸ .lanesDone wi hpc (by omega)
  | clear =>
    simp only [hpc, Option.some.injEq] at h
    exact h ▸ .clear hpc

/-- The successors of a step of the protocol. -/
inductive StepCase (s : State cfg) : Action cfg → State cfg → Prop
  | invoke (w : Fin cfg.waves) (req : Request) (hpc : (s.waves w).pc = .idle) :
      StepCase s (.invoke w req) ({ s with calls := s.calls + 1 }.setWave w
        { s.waves w with pc := .pop .load, req := req, call := s.calls })
  | wave (w : Fin cfg.waves) {s' : State cfg} : WaveCase s w s' → StepCase s (.wave w) s'
  | host (out : Slot) {s' : State cfg} : HostCase s out s' → StepCase s (.host out) s'

theorem step_cases {a : Action cfg} (h : step s a = some s') : StepCase s a s' := by
  cases a with
  | invoke w req =>
    simp only [step] at h
    split_ifs at h with hpc
    exact Option.some.inj h ▸ .invoke w req hpc
  | wave w => exact .wave w (waveStep_cases h)
  | host out => exact .host out (hostStep_cases h)

section

variable (b : Buffer) (st : StackId) (v : Word)

@[simp] theorem Buffer.setTop_headers : (b.setTop st v).headers = b.headers := by cases st <;> rfl
@[simp] theorem Buffer.setTop_payloads : (b.setTop st v).payloads = b.payloads := by cases st <;> rfl
@[simp] theorem Buffer.setTop_index_size : (b.setTop st v).index_size = b.index_size := by
  cases st <;> rfl
@[simp] theorem Buffer.setTop_device_id : (b.setTop st v).device_id = b.device_id := by
  cases st <;> rfl
@[simp] theorem Buffer.setTop_free : (b.setTop .free v).free_stack = v := rfl
@[simp] theorem Buffer.setTop_free_ready : (b.setTop .free v).ready_stack = b.ready_stack := rfl
@[simp] theorem Buffer.setTop_ready : (b.setTop .ready v).ready_stack = v := rfl
@[simp] theorem Buffer.setTop_ready_free : (b.setTop .ready v).free_stack = b.free_stack := rfl

end

end Aomp.Hostexec
