import Aomp.Fortran.Flush
import Aomp.Hostexec.Machine

/-!
# What the host services write

`execute_service` gets the payload of one slot. Its handlers store at most three words of
that slot; only the Fortran service also stores through pointers it kept from earlier
requests. `Write` records for every store the slot of the request it is made for.
-/
namespace Aomp.Hostexec

open Foundations Fortran

variable {ι : Type}

/-- A payload slot: a packet and a lane. -/
structure SlotAddr where
  packet : ℕ
  lane : Fin 64
  deriving DecidableEq

/-- A store into a payload word during the execution of the request in slot `request`. -/
structure Write where
  request : SlotAddr
  slot : SlotAddr
  word : Fin 8
  value : Word

/-- The store goes to the slot of the request. -/
def Write.Own (w : Write) : Prop := w.slot = w.request

instance : DecidablePred Write.Own := fun w => inferInstanceAs (Decidable (w.slot = w.request))

/-- What the buffer of a Fortran request holds. -/
inductive FortranBuffer
  /-- It is empty or malformed. -/
  | rejected
  /-- A deferred call; a thread reports numbers inside its league. -/
  | deferred (r : StubRequest) (thread : r.thread_num < r.num_threads)
      (team : r.team_num < r.num_teams)
  /-- A call that is not deferred. -/
  | direct (req : Fortran.Request)
      (h : ∀ fn, DeviceRt.ofIdx req.DeviceRuntime_idx = some fn → fn.deferForReorder = false)

/-- What an execution takes from outside the payload: what the service function returns
and stores, whether it stores at all, the result of a memory operation and its pointer. -/
structure Outcome where
  value : Word
  called : Bool
  rc : Word
  err : Word
  ptr : Word
  buffer : FortranBuffer

def storeWords (slot : SlotAddr) (words : List (Fin 8 × Word)) : List Write :=
  words.map fun (k, v) => ⟨slot, slot, k, v⟩

/-- `handler_SERVICE_PRINTF` -/
def handlerServicePrintf (slot : SlotAddr) (o : Outcome) : List Write :=
  storeWords slot [(0, o.value), (1, o.rc), (2, o.err)]

/-- `handler_SERVICE_FPRINTF` -/
def handlerServiceFprintf (slot : SlotAddr) (o : Outcome) : List Write :=
  storeWords slot [(0, o.value), (1, o.rc), (2, o.err)]

/-- `handler_SERVICE_VARFN`: the return value has at most 8 bytes. -/
def handlerServiceVarfn (slot : SlotAddr) (o : Outcome) : List Write :=
  storeWords slot ((0, 0) :: (if o.called then [(0, o.value)] else []) ++ [(1, o.rc), (2, o.err)])

/-- `handler_SERVICE_HOST_MALLOC` -/
def handlerServiceHostMalloc (slot : SlotAddr) (o : Outcome) : List Write :=
  storeWords slot [(0, o.err), (1, o.ptr)]

/-- `handler_SERVICE_MALLOC` -/
def handlerServiceMalloc (slot : SlotAddr) (o : Outcome) : List Write :=
  storeWords slot [(0, o.err), (1, o.ptr)]

/-- `handler_SERVICE_FREE` -/
def handlerServiceFree (slot : SlotAddr) (o : Outcome) : List Write :=
  storeWords slot [(0, o.err)]

/-- `fortran_rt_service` on a buffer. -/
def fortranService (results : ℕ → Word) (st : Fortran.State ι SlotAddr) (slot : SlotAddr)
    (origin : ι) (o : Outcome) : Option (Fortran.State ι SlotAddr × Word) :=
  match o.buffer with
  | .rejected => some (st, o.rc)
  | .deferred r _ _ =>
    (fortranRtService results st slot origin r.toRequest).map fun (st, rc) => (st, rc.code)
  | .direct req _ => (fortranRtService results st slot origin req).map fun (st, rc) => (st, rc.code)

/-- `handler_SERVICE_FORTRT`: each call stores its result through its `return_value`. -/
def handlerServiceFortrt (results : ℕ → Word) (st : Fortran.State ι SlotAddr) (slot : SlotAddr)
    (origin : ι) (o : Outcome) : Option (Fortran.State ι SlotAddr × List Write) :=
  (fortranService results st slot origin o).map fun (st', rc) =>
    (st', storeWords slot [(0, 0)] ++
      (st'.called.drop st.called.length).map (fun c => ⟨slot, c.return_value, 0, c.result⟩) ++
      storeWords slot [(1, rc), (2, o.err)])

/-- The cases of `execute_service` that keep no state. -/
def payloadHandler (service_id : BitVec 32) : Option (SlotAddr → Outcome → List Write) :=
  if service_id = HOSTEXEC_SID_PRINTF then some handlerServicePrintf
  else if service_id = HOSTEXEC_SID_FPRINTF then some handlerServiceFprintf
  else if service_id ∈ [HOSTEXEC_SID_VOID, HOSTEXEC_SID_UINT, HOSTEXEC_SID_UINT64,
      HOSTEXEC_SID_DOUBLE, HOSTEXEC_SID_INT, HOSTEXEC_SID_LONG, HOSTEXEC_SID_FLOAT] then
    some handlerServiceVarfn
  else if service_id = HOSTEXEC_SID_HOST_MALLOC then some handlerServiceHostMalloc
  else if service_id = HOSTEXEC_SID_DEVICE_MALLOC then some handlerServiceMalloc
  else if service_id = HOSTEXEC_SID_FREE then some handlerServiceFree
  else none

/-- `execute_service`; `none` is the abort on an unknown service. -/
def executeService (results : ℕ → Word) (st : Fortran.State ι SlotAddr) (service_id : BitVec 32)
    (slot : SlotAddr) (origin : ι) (o : Outcome) :
    Option (Fortran.State ι SlotAddr × List Write) :=
  if service_id = HOSTEXEC_SID_FORTRT then handlerServiceFortrt results st slot origin o
  else (payloadHandler service_id).map fun handler => (st, handler slot o)

structure HostState (ι : Type) where
  memory : SlotAddr → Slot
  fortran : Fortran.State ι SlotAddr
  /-- All stores of the services so far. -/
  writes : List Write

def HostState.init (memory : SlotAddr → Slot) : HostState ι := ⟨memory, Fortran.State.init, []⟩

inductive HostAction (ι : Type)
  /-- The consumer executes the request in `slot`. -/
  | execute (service_id : BitVec 32) (slot : SlotAddr) (origin : ι) (o : Outcome)
  /-- Waves return packets and fill others. -/
  | refill (memory : SlotAddr → Slot)

def Write.apply (memory : SlotAddr → Slot) (w : Write) : SlotAddr → Slot :=
  Function.update memory w.slot (Function.update (memory w.slot) w.word w.value)

def serviceStep (results : ℕ → Word) (s : HostState ι) : HostAction ι → Option (HostState ι)
  | .execute service_id slot origin o =>
    (executeService results s.fortran service_id slot origin o).map fun (fortran, writes) =>
      ⟨writes.foldl Write.apply s.memory, fortran, s.writes ++ writes⟩
  | .refill memory => some { s with memory := memory }

def serviceRun (results : ℕ → Word) (s : HostState ι) (actions : List (HostAction ι)) :
    Option (HostState ι) :=
  actions.foldlM (serviceStep results) s

@[simp] theorem own_of_mem_storeWords {slot : SlotAddr} {words : List (Fin 8 × Word)} {w : Write}
    (h : w ∈ storeWords slot words) : w.Own := by
  obtain ⟨⟨k, v⟩, -, rfl⟩ := List.mem_map.mp h
  rfl

theorem payloadHandler_own {service_id : BitVec 32} {handler : SlotAddr → Outcome → List Write}
    (h : payloadHandler service_id = some handler) (slot : SlotAddr) (o : Outcome) :
    ∀ w ∈ handler slot o, w.Own := by
  intro w hw
  unfold payloadHandler at h
  split_ifs at h
  all_goals
    obtain rfl := Option.some.inj h
    exact own_of_mem_storeWords hw

end Aomp.Hostexec
