import Aomp.Hostexec.Transitions

/-!
# The service thread

One thread serves the buffers of all queues. It sleeps on the doorbell, takes the lock and
visits the registered buffers; waves of all buffers add to the same doorbell, and
`hostrpc_terminate` stores a command in it. The device side of each buffer and
`process_packets` are the steps of `Machine`.
-/
namespace Aomp.Hostexec

open Foundations

variable {ι : Type} {cfg : ι → Config}

def SIGNAL_INIT : Word := 18446744073709551615#64
def SIGNAL_DONE : Word := SIGNAL_INIT - 1

/-- Where the service thread is in `consume_packets`. -/
inductive LoopPc (ι : Type)
  /-- In `hsa_signal_wait_scacquire`. -/
  | waiting
  /-- The wait has returned and the lock is not taken. -/
  | woken
  /-- The lock is taken; the iterator is at the head of `todo`. -/
  | scanning (todo : List ι)
  /-- The thread has returned. -/
  | exited
  deriving DecidableEq

/-- Where the host is in `hostrpc_terminate`, that is in `~consumer_t`. -/
inductive TerminatePc (ι : Type)
  | running
  | deregister (todo : List ι)
  | store
  | join
  | terminated
  deriving DecidableEq

/-- `consumer_t`, its thread and the buffers of the queues `ι`. -/
structure Process (cfg : ι → Config) where
  /-- The value of the signal. -/
  doorbell : Word
  /-- The keys of `critical_data.buffers`, in any order. -/
  buffers : List ι
  /-- The `discarded` field of each record. -/
  discarded : ι → Bool
  hsaq_bufs : List ι
  memory : (b : ι) → State (cfg b)
  loop : LoopPc ι
  signal_value : Word
  terminate : TerminatePc ι
  /-- The buffers that `hostrpc_assign_buffer` returned to a kernel launch. -/
  assigned : List ι
  /-- History: the waves that pushed on the ready stack since it was last grabbed. -/
  posted : (b : ι) → List (Fin (cfg b).waves)
  /-- History: the additions to the doorbell since the wait last returned. -/
  rung : ℕ
  /-- History: the additions to the doorbell since it was created or set. -/
  added : ℕ
  /-- History: the first value that the wait returned after `SIGNAL_DONE` was stored. -/
  heard : Option Word

/-- `create_consumer` and `launch_service_thread`. No kernel has run, and `raw` is the memory
that will hold the buffers. -/
def Process.init (cfg : ι → Config) (raw : ι → Buffer) : Process cfg where
  doorbell := SIGNAL_INIT
  buffers := []
  discarded := fun _ => false
  hsaq_bufs := []
  memory := fun b => State.init (cfg b) (raw b)
  loop := .waiting
  signal_value := SIGNAL_INIT
  terminate := .running
  assigned := []
  posted := fun _ => []
  rung := 0
  added := 0
  heard := none

variable [DecidableEq ι]

namespace Process

variable (p : Process cfg)

def shared (b : ι) : State (cfg b) :=
  (p.memory b).setBuf { (p.memory b).buf with doorbell := p.doorbell }

@[simps -fullyApplied] def setMemory (b : ι) (t : State (cfg b)) : Process cfg :=
  { p with memory := Function.update p.memory b t, doorbell := t.buf.doorbell }

def locked : Bool :=
  match p.loop with
  | .scanning _ => true
  | _ => false

/-- `SIGNAL_DONE` has been stored. -/
def stored : Bool :=
  match p.terminate with
  | .join | .terminated => true
  | _ => false

/-- `register_buffer`; the buffer was just created. -/
def registerBuffer (b : ι) (raw : Buffer) : Process cfg :=
  { p with
    buffers := if b ∈ p.buffers then p.buffers else b :: p.buffers
    discarded := Function.update p.discarded b false
    memory := Function.update p.memory b (State.init (cfg b) raw)
    posted := Function.update p.posted b [] }

/-- `deregister_buffer` without its return code. -/
def deregisterBuffer (b : ι) : Process cfg :=
  { p with
    discarded :=
      if b ∈ p.buffers ∧ p.discarded b = false then Function.update p.discarded b true
      else p.discarded }

end Process

inductive ProcessAction (cfg : ι → Config)
  /-- A kernel launch calls `hostrpc_assign_buffer`; `raw` is the memory it may allocate. -/
  | assign (b : ι) (raw : Buffer)
  /-- A wave calls `hostexec_invoke`, or takes its next step. -/
  | invoke (b : ι) (w : Fin (cfg b).waves) (req : Request)
  | wave (b : ι) (w : Fin (cfg b).waves)
  /-- The wait returns: it timed out, or the doorbell has changed. -/
  | wait
  /-- The service thread takes the lock; the map is visited in this order. -/
  | lock (order : List ι)
  /-- The service thread takes its next step under the lock. -/
  | host (out : Slot)
  /-- The host takes the next step of `hostrpc_terminate`. -/
  | terminate

/-- One step of `consume_packets` under the lock. -/
def scanStep (p : Process cfg) (out : Slot) : Option (Process cfg) :=
  match p.loop with
  | .scanning [] => some { p with loop := .waiting }
  | .scanning (b :: rest) =>
    if p.discarded b then some { p with buffers := p.buffers.erase b, loop := .scanning rest }
    else
      (hostStep (p.shared b) out).map fun t => { p.setMemory b t with
        posted :=
          if (p.memory b).consumer.pc = .idle then Function.update p.posted b [] else p.posted
        loop := .scanning (if t.consumer.pc = .idle then rest else b :: rest) }
  | _ => none

/-- One step of `hostrpc_terminate`. -/
def terminateStep (p : Process cfg) : Option (Process cfg) :=
  match p.terminate with
  | .running => some { p with terminate := .deregister p.hsaq_bufs }
  | .deregister (b :: rest) =>
    if p.locked then none else some { p.deregisterBuffer b with terminate := .deregister rest }
  | .deregister [] => some { p with hsaq_bufs := [], terminate := .store }
  -- terminate_service_thread
  | .store => some { p with doorbell := SIGNAL_DONE, added := 0, terminate := .join }
  | .join =>
    if p.loop = .exited then some { p with buffers := [], terminate := .terminated } else none
  | .terminated => none

def processStep (p : Process cfg) : ProcessAction cfg → Option (Process cfg)
  | .assign b raw =>
    if p.terminate = .running then
      if b ∈ p.hsaq_bufs then some p
      else if p.locked then none
      else some { p.registerBuffer b raw with
        hsaq_bufs := p.hsaq_bufs ++ [b]
        assigned := b :: p.assigned }
    else none
  | .invoke b w req =>
    if b ∈ p.assigned then (step (p.shared b) (.invoke w req)).map (p.setMemory b) else none
  | .wave b w =>
    if b ∈ p.assigned then
      (waveStep (p.shared b) w).map fun t =>
        let rings := if ((p.memory b).waves w).pc = .ring then 1 else 0
        { p.setMemory b t with
          posted :=
            if (t.waves w).pc = .ring then Function.update p.posted b (w :: p.posted b)
            else p.posted
          rung := p.rung + rings
          added := p.added + rings }
    else none
  | .wait =>
    if p.loop = .waiting then
      some { p with
        signal_value := p.doorbell
        rung := 0
        heard := if p.stored ∧ p.heard = none then some p.doorbell else p.heard
        loop := if p.doorbell = SIGNAL_DONE then .exited else .woken }
    else none
  | .lock order =>
    if p.loop = .woken ∧ order.Perm p.buffers then some { p with loop := .scanning order } else none
  | .host out => scanStep p out
  | .terminate => terminateStep p

variable {p p' : Process cfg} {out : Slot}

/-- The successors of a step under the lock. -/
inductive ScanCase (p : Process cfg) (out : Slot) : Process cfg → Prop
  | unlock (hloop : p.loop = .scanning []) : ScanCase p out { p with loop := .waiting }
  | erase (b : ι) (rest : List ι) (hloop : p.loop = .scanning (b :: rest))
      (hdiscarded : p.discarded b = true) :
      ScanCase p out { p with buffers := p.buffers.erase b, loop := .scanning rest }
  | serve (b : ι) (rest : List ι) (t : State (cfg b)) (hloop : p.loop = .scanning (b :: rest))
      (hkept : p.discarded b = false) (ht : hostStep (p.shared b) out = some t) :
      ScanCase p out { p.setMemory b t with
        posted :=
          if (p.memory b).consumer.pc = .idle then Function.update p.posted b [] else p.posted
        loop := .scanning (if t.consumer.pc = .idle then rest else b :: rest) }

theorem scanStep_cases (h : scanStep p out = some p') : ScanCase p out p' := by
  unfold scanStep at h
  split at h
  · exact Option.some.inj h ▸ .unlock ‹_›
  · rename_i b rest hloop
    cases hdiscarded : p.discarded b with
    | true =>
      rw [if_pos hdiscarded] at h
      exact Option.some.inj h ▸ .erase b rest hloop hdiscarded
    | false =>
      rw [if_neg (by simp [hdiscarded])] at h
      obtain ⟨t, ht, rfl⟩ := Option.map_eq_some_iff.mp h
      exact .serve b rest t hloop hdiscarded ht
  · cases h

/-- The successors of a step of `hostrpc_terminate`. -/
inductive TerminateCase (p : Process cfg) : Process cfg → Prop
  | call (hpc : p.terminate = .running) :
      TerminateCase p { p with terminate := .deregister p.hsaq_bufs }
  | deregister (b : ι) (rest : List ι) (hpc : p.terminate = .deregister (b :: rest))
      (hlock : p.locked = false) :
      TerminateCase p { p.deregisterBuffer b with terminate := .deregister rest }
  | clear (hpc : p.terminate = .deregister []) :
      TerminateCase p { p with hsaq_bufs := [], terminate := .store }
  | store (hpc : p.terminate = .store) :
      TerminateCase p { p with doorbell := SIGNAL_DONE, added := 0, terminate := .join }
  | join (hpc : p.terminate = .join) (hloop : p.loop = .exited) :
      TerminateCase p { p with buffers := [], terminate := .terminated }

theorem terminateStep_cases (h : terminateStep p = some p') : TerminateCase p p' := by
  unfold terminateStep at h
  split at h
  · exact Option.some.inj h ▸ .call ‹_›
  · split_ifs at h with hlock
    exact Option.some.inj h ▸ .deregister _ _ ‹_› (Bool.eq_false_iff.mpr hlock)
  · exact Option.some.inj h ▸ .clear ‹_›
  · exact Option.some.inj h ▸ .store ‹_›
  · split_ifs at h with hloop
    exact Option.some.inj h ▸ .join ‹_› hloop
  · cases h

end Aomp.Hostexec
