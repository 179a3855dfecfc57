import Aomp.Foundations.TransitionSystem
import Aomp.Hostexec.Buffer

/-!
# The hostexec protocol as a step machine

Waves run `hostexec_invoke` any number of times; one consumer thread grabs the ready
stack and answers its packets. Every atomic load, compare-and-swap and exchange, every
plain write of a `next` field and every other access to shared memory is a step of
its own, so a run is an arbitrary interleaving.

The last fields of `State` are history only: no step reads them to decide what it does.
-/
namespace Aomp.Hostexec

open Foundations

/-- What a compare-and-swap leaves: its boolean, the memory cell and `*e_val`. -/
structure CasResult where
  ok : Bool
  mem : Word
  e_val : Word

/-- `atomic64CAS_AX` and `atomic64CAS_RX` on amdgcn: `compare_exchange_strong`. -/
def atomic64CAS (mem e_val new_ptr : Word) : CasResult :=
  if mem = e_val then ⟨true, new_ptr, e_val⟩ else ⟨false, mem, mem⟩

/-- `activemask & ((uint64_t)1 << wi)` is not zero. -/
def laneActive (activemask : Word) (wi : ℕ) : Bool := activemask &&& (1#64 <<< wi) != 0#64

def HOSTEXEC_SID_DEVICE_MALLOC : BitVec 32 := 2
def HOSTEXEC_SID_HOST_MALLOC : BitVec 32 := 3
def HOSTEXEC_SID_FREE : BitVec 32 := 4
def HOSTEXEC_SID_PRINTF : BitVec 32 := 5
def HOSTEXEC_SID_FPRINTF : BitVec 32 := 6
def HOSTEXEC_SID_SANITIZER : BitVec 32 := 8
def HOSTEXEC_SID_UINT : BitVec 32 := 9
def HOSTEXEC_SID_UINT64 : BitVec 32 := 10
def HOSTEXEC_SID_DOUBLE : BitVec 32 := 11
def HOSTEXEC_SID_INT : BitVec 32 := 12
def HOSTEXEC_SID_LONG : BitVec 32 := 13
def HOSTEXEC_SID_FLOAT : BitVec 32 := 14
def HOSTEXEC_SID_VOID : BitVec 32 := 15
def HOSTEXEC_SID_FORTRT : BitVec 32 := 16

/-- The cases of the switch in `execute_service`; any other id aborts the process. -/
def executableServices : List (BitVec 32) :=
  [HOSTEXEC_SID_PRINTF, HOSTEXEC_SID_FPRINTF, HOSTEXEC_SID_VOID, HOSTEXEC_SID_UINT,
    HOSTEXEC_SID_UINT64, HOSTEXEC_SID_DOUBLE, HOSTEXEC_SID_INT, HOSTEXEC_SID_LONG,
    HOSTEXEC_SID_FLOAT, HOSTEXEC_SID_HOST_MALLOC, HOSTEXEC_SID_DEVICE_MALLOC, HOSTEXEC_SID_FREE,
    HOSTEXEC_SID_FORTRT]

/-- The arguments of one wave-wide call of `hostexec_invoke`. -/
structure Request where
  service_id : BitVec 32
  activemask : Word
  args : Payload
  /-- A wave runs with at least one active lane. -/
  active : activemask ≠ 0#64

theorem firstLane_active : (1 : Word) ≠ 0#64 := by decide

/-- Lanes 0 and 2. -/
theorem twoLanes_active : (5 : Word) ≠ 0#64 := by decide

instance : Inhabited Request := ⟨⟨0, 1, fun _ _ => 0, firstLane_active⟩⟩

/-- Inside the loop of `pop`. -/
inductive PopPc
  | load
  | next
  | cas
  deriving DecidableEq

/-- Inside the loop of `push`. -/
inductive PushPc
  | load
  | link
  | cas
  deriving DecidableEq

/-- Where a wave is in `hostexec_invoke`. -/
inductive Pc
  | idle
  | pop (at' : PopPc)
  | fillHeader
  | fillWord (j : ℕ)
  | push (st : StackId) (at' : PushPc)
  | ring
  | wait
  | read (j : ℕ)
  deriving DecidableEq

/-- A wave and its registers. `call` numbers the invocation and `seen` is the recycle
count of the packet `F` when `F` was loaded; both are history. -/
structure Wave where
  pc : Pc
  req : Request
  packet_ptr : Word
  F : Word
  N : Word
  retval : Payload
  call : ℕ
  seen : ℕ

/-- Where the consumer is in `consume_packets` and `process_packets`. -/
inductive HostPc
  | idle
  | loadNext
  | loadMask
  | loadService
  | lane (wi : ℕ)
  | sanitize
  | clear
  deriving DecidableEq

/-- The consumer thread and its local variables. -/
structure Consumer where
  pc : HostPc
  iter : Word
  next : Word
  activemask : Word
  service_id : BitVec 32

/-- One run of `execute_service`. -/
structure Execution where
  call : ℕ
  lane : Fin 64
  service_id : BitVec 32
  device_id : BitVec 32
  args : Slot
  result : Slot

/-- One run of `handler_SERVICE_SANITIZER`. -/
structure Report where
  call : ℕ
  activemask : Word
  device_id : BitVec 32
  payload : Payload

/-- One completed `hostexec_invoke`. -/
structure Completed where
  call : ℕ
  req : Request
  retval : Payload

/-- A buffer of `num_packets` packets used by at most as many waves. -/
structure Config where
  num_packets : ℕ
  waves : ℕ
  device_id : BitVec 32
  pos : 1 ≤ num_packets
  lt : num_packets < 2 ^ 32
  waves_le : waves ≤ num_packets

variable {cfg : Config}

structure State (cfg : Config) where
  buf : Buffer
  waves : Fin cfg.waves → Wave
  consumer : Consumer
  /-- How often each packet was returned to the free stack. -/
  recycled : ℕ → ℕ
  /-- How many invocations were started. -/
  calls : ℕ
  /-- The invocation that last filled the header of each packet. -/
  callOf : ℕ → ℕ
  log : List Execution
  reports : List Report
  completed : List Completed

def State.init (cfg : Config) (raw : Buffer) : State cfg where
  buf := initBuffer raw cfg.num_packets cfg.device_id
  waves := fun _ => ⟨.idle, default, 0, 0, 0, fun _ _ => 0, 0, 0⟩
  consumer := ⟨.idle, 0, 0, 0, 0⟩
  recycled := fun _ => 0
  calls := 0
  callOf := fun _ => 0
  log := []
  reports := []
  completed := []

namespace State

variable (s : State cfg)

@[simps -fullyApplied] def setWave (w : Fin cfg.waves) (t : Wave) : State cfg :=
  { s with waves := Function.update s.waves w t }

@[simps -fullyApplied] def setBuf (b : Buffer) : State cfg := { s with buf := b }

end State

/-- The pointer that `push` is called with: `return_free_packet` increments the tag. -/
def Wave.pushPtr (t : Wave) (index_size : ℕ) : StackId → Word
  | .ready => t.packet_ptr
  | .free => incPtrTag t.packet_ptr index_size

/-- The lanes of `p` that `mask` selects take word `j` of `q`. -/
def Payload.copyWord (p q : Payload) (mask : Word) (j : ℕ) : Payload :=
  fun l k => if laneActive mask l ∧ k.val = j then q l k else p l k

inductive Action (cfg : Config)
  /-- A wave calls `hostexec_invoke`. -/
  | invoke (w : Fin cfg.waves) (req : Request)
  /-- A wave takes its next step. -/
  | wave (w : Fin cfg.waves)
  /-- The consumer takes its next step; `out` is what a service leaves in its slot. -/
  | host (out : Slot)

/-- One step of `hostexec_invoke`. -/
def waveStep (s : State cfg) (w : Fin cfg.waves) : Option (State cfg) :=
  let t := s.waves w
  match t.pc with
  | .idle => none
  -- pop_free_stack
  | .pop .load =>
    let F := s.buf.free_stack
    some (s.setWave w { t with pc := .pop .next, F := F, seen := s.recycled (s.buf.index F) })
  | .pop .next => some (s.setWave w { t with pc := .pop .cas, N := (s.buf.getHeader t.F).next })
  | .pop .cas =>
    let r := atomic64CAS s.buf.free_stack t.F t.N
    if r.ok then
      some ((s.setBuf (s.buf.setTop .free r.mem)).setWave w
        { t with pc := .fillHeader, packet_ptr := r.e_val })
    else
      some (s.setWave w
        { t with pc := .pop .next, F := r.e_val, seen := s.recycled (s.buf.index r.e_val) })
  -- fill_packet
  | .fillHeader =>
    let header := { s.buf.getHeader t.packet_ptr with
      service := t.req.service_id
      activemask := t.req.activemask
      control := setReadyFlag 0#32 }
    some ({ s with
      buf := s.buf.setHeader t.packet_ptr header
      callOf := Function.update s.callOf (s.buf.index t.packet_ptr) t.call }.setWave w
        { t with pc := .fillWord 0 })
  | .fillWord j =>
    let payload := (s.buf.getPayload t.packet_ptr).copyWord t.req.args t.req.activemask j
    some ((s.setBuf (s.buf.setPayload t.packet_ptr payload)).setWave w
      { t with pc := if j + 1 < 8 then .fillWord (j + 1) else .push .ready .load })
  -- push, on the ready stack in push_ready_stack and on the free stack in return_free_packet
  | .push st .load => some (s.setWave w { t with pc := .push st .link, F := s.buf.top st })
  | .push st .link =>
    let ptr := t.pushPtr s.buf.index_size st
    some ((s.setBuf (s.buf.setHeader ptr { s.buf.getHeader ptr with next := t.F })).setWave w
      { t with pc := .push st .cas })
  | .push st .cas =>
    let ptr := t.pushPtr s.buf.index_size st
    let r := atomic64CAS (s.buf.top st) t.F ptr
    if r.ok then
      let s' := s.setBuf (s.buf.setTop st r.mem)
      match st with
      | .ready => some (s'.setWave w { t with pc := .ring })
      | .free =>
        let i := s.buf.index t.packet_ptr
        some ({ s' with
          recycled := Function.update s.recycled i (s.recycled i + 1)
          completed := ⟨t.call, t.req, t.retval⟩ :: s.completed }.setWave w { t with pc := .idle })
    else some (s.setWave w { t with pc := .push st .link, F := r.e_val })
  -- send_signal
  | .ring =>
    some ((s.setBuf { s.buf with doorbell := s.buf.doorbell + 1 }).setWave w { t with pc := .wait })
  -- get_return_value
  | .wait =>
    if getReadyFlag (s.buf.getHeader t.packet_ptr).control = 0#32 then
      some (s.setWave w { t with pc := .read 0 })
    else some s
  | .read j =>
    let retval := t.retval.copyWord (s.buf.getPayload t.packet_ptr) t.req.activemask j
    some (s.setWave w
      { t with retval := retval, pc := if j + 1 < 8 then .read (j + 1) else .push .free .load })

def hostStep (s : State cfg) (out : Slot) : Option (State cfg) :=
  let c := s.consumer
  let header := s.buf.getHeader c.iter
  let i := s.buf.index c.iter
  match c.pc with
  -- consume_packets: grab_ready_stack
  | .idle =>
    let F := s.buf.ready_stack
    let s' := s.setBuf (s.buf.setTop .ready 0#64)
    if F = 0#64 then some s' else some { s' with consumer := { c with pc := .loadNext, iter := F } }
  -- process_packets
  | .loadNext => some { s with consumer := { c with pc := .loadMask, next := header.next } }
  | .loadMask =>
    some { s with consumer := { c with pc := .loadService, activemask := header.activemask } }
  | .loadService =>
    let pc := if header.service = HOSTEXEC_SID_SANITIZER then .sanitize else .lane 0
    some { s with consumer := { c with pc := pc, service_id := header.service } }
  | .sanitize =>
    -- handler_SERVICE_SANITIZER reads the payload and writes none of it
    some { s with
      consumer := { c with pc := .clear }
      reports := ⟨s.callOf i, c.activemask, s.buf.device_id, s.buf.getPayload c.iter⟩ :: s.reports }
  | .lane wi =>
    if h : wi < 64 then
      let s' := { s with consumer := { c with pc := .lane (wi + 1) } }
      if laneActive c.activemask wi then
        if c.service_id ∈ executableServices then
          let lane : Fin 64 := ⟨wi, h⟩
          let payload := s.buf.getPayload c.iter
          let run := ⟨s.callOf i, lane, c.service_id, s.buf.device_id, payload lane, out⟩
          some { s' with
            buf := s.buf.setPayload c.iter (Function.update payload lane out)
            log := s.log ++ [run] }
        else none
      else some s'
    else some { s with consumer := { c with pc := .clear } }
  | .clear =>
    let header := { header with control := resetReadyFlag header.control }
    some { s with
      buf := s.buf.setHeader c.iter header
      consumer := { c with iter := c.next, pc := if c.next = 0#64 then .idle else .loadNext } }

def step (s : State cfg) : Action cfg → Option (State cfg)
  | .invoke w req =>
    if (s.waves w).pc = .idle then
      some ({ s with calls := s.calls + 1 }.setWave w
        { s.waves w with pc := .pop .load, req := req, call := s.calls })
    else none
  | .wave w => waveStep s w
  | .host out => hostStep s out

/-- During an attempt of `pop` the packet it loaded is not recycled so often that its
tag comes back to the same value. -/
def NoTagWrap (s : State cfg) : Prop :=
  ∀ w, (s.waves w).pc = .pop .next ∨ (s.waves w).pc = .pop .cas →
    s.recycled (s.buf.index (s.waves w).F) <
      (s.waves w).seen + tagPeriod s.buf.index_size (s.buf.index (s.waves w).F)

abbrev Service := BitVec 32 → BitVec 32 → Slot → Slot → Prop

/-- The service run by a step of the consumer respects `exec`. -/
def Serves (exec : Service) (s : State cfg) : Action cfg → Prop
  | .host out => ∀ lane : Fin 64, s.consumer.pc = .lane lane →
      laneActive s.consumer.activemask lane →
      exec s.consumer.service_id s.buf.device_id (s.buf.getPayload s.consumer.iter lane) out
  | _ => True

/-- Reachable states of the protocol under the tag assumption. -/
def Reaches (raw : Buffer) (s : State cfg) : Prop :=
  Reachable step (fun s _ => NoTagWrap s) (State.init cfg raw) s

/-- Reachable states of the protocol when in addition the services respect `exec`. -/
def ReachesServing (exec : Service) (raw : Buffer) (s : State cfg) : Prop :=
  Reachable step (fun s a => NoTagWrap s ∧ Serves exec s a) (State.init cfg raw) s

end Aomp.Hostexec
