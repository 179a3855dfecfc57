import Aomp.Arguments.Calls
import Aomp.Hostexec.MessageBuffers

/-!
# Remote calls from end to end

A lane that calls a host function asks for a buffer, makes the stores that clang emitted for
its arguments and sends the buffer. Here the emitted stores, the protocol, the heap and the
services that unpack a buffer run together: lanes of all waves store at any time, into one
memory, while the host serves other calls.
-/
namespace Aomp.Hostexec

open Foundations

variable {cfg : Config} {raw : Buffer}

section Messages

open Arguments

/-- What `hostexec_allocate` is asked for. -/
def bufferLen (c : Call) : ℕ := (emitHostexecAllocAndExecFns c.passed).elim 0 Emitted.BufferLen

def storesOf (c : Call) : List Store := (emitHostexecAllocAndExecFns c.passed).elim [] Emitted.stores

/-- The services that the call can be sent to. -/
def callServices : Call → List (BitVec 32)
  | .printf .. => [HOSTEXEC_SID_PRINTF]
  | .fprintf .. => [HOSTEXEC_SID_FPRINTF]
  | .hostexec .. => [HOSTEXEC_SID_VOID, HOSTEXEC_SID_UINT, HOSTEXEC_SID_UINT64, HOSTEXEC_SID_DOUBLE,
      HOSTEXEC_SID_INT, HOSTEXEC_SID_LONG, HOSTEXEC_SID_FLOAT]

/-- The call is within the limits of the emitted code. -/
structure Sendable (c : Call) : Prop where
  supported : c.Supported
  fits : c.Fits

/-- The message in the buffer arrives at the function that the service calls. -/
def Arrives (c : Call) (mem : ℕ → Byte) (buf bufsz : ℕ) : Prop :=
  ∃ ws, c.unpack (fun _ => true) mem buf bufsz = some ws ∧
    List.Forall₂ (fun a w => a.Delivered mem w) c.passed ws

theorem host_malloc_notMem : HOSTEXEC_SID_HOST_MALLOC ∉ messageServices := by decide

theorem callServices_message {c : Call} {id : BitVec 32} (h : id ∈ callServices c) :
    id ∈ messageServices := by
  cases c <;> simp [callServices] at h <;> simp [messageServices, h]
  tauto

theorem bufferLen_lt (c : Call) : bufferLen c < 2 ^ 32 := by
  unfold bufferLen emitHostexecAllocAndExecFns
  cases c.passed.mapM Arg.entry with
  | none => simp
  | some entries => exact Nat.mod_lt _ (by norm_num)

variable {c : Call}

theorem Sendable.emitted (h : Sendable c) : ∃ entries, c.passed.mapM Arg.entry = some entries ∧
    Lowers c.passed entries ∧ Fits entries ∧
    bufferLen c = textEnd (dataLen entries) entries ∧ storesOf c = layoutStores entries := by
  obtain ⟨entries, hentries, hlowers⟩ := mapM_entry c.passed h.supported.1
  have hfits := h.fits entries hentries
  have hemit : emitHostexecAllocAndExecFns c.passed =
      some ⟨textEnd (dataLen entries) entries, layoutStores entries⟩ := by
    unfold emitHostexecAllocAndExecFns
    rw [hentries, Option.map_some, emitEntries_eq hfits.buffer]
  exact ⟨entries, hentries, hlowers, hfits, by rw [bufferLen, hemit]; rfl,
    by rw [storesOf, hemit]; rfl⟩

theorem Sendable.store_le (h : Sendable c) {st : Store} (hst : st ∈ storesOf c) :
    st.finish ≤ bufferLen c := by
  obtain ⟨entries, -, hlowers, -, hlen, hstores⟩ := h.emitted
  rw [hstores] at hst
  rw [hlen]
  exact ((layoutStores_between hlowers.lowered).bounds st hst).2

/-- A buffer in which all stores are made is unpacked to the arguments. -/
theorem Sendable.arrives (h : Sendable c) {mem₀ mem : ℕ → Byte} {buf : ℕ} (hbuf : 8 ∣ buf)
    (hspace : buf + bufferLen c < 2 ^ 64)
    (hmem : ∀ i < bufferLen c, mem (buf + i) = Store.writeAll buf mem₀ (storesOf c) (buf + i)) :
    Arrives c mem buf (bufferLen c) := by
  obtain ⟨entries, -, hlowers, hfits, hlen, hstores⟩ := h.emitted
  rw [hlen] at hspace hmem ⊢
  rw [hstores] at hmem
  have hrec : Received mem buf entries := received_of_stores hbuf hfits hspace hlowers.lowered hmem
  have hcall : c.Callable := by
    have := h.supported.2
    cases c <;> exact this
  have hsz : textEnd (dataLen entries) entries ≠ 0 := by
    have hwords : 4 * (entries.length + 2) ≤ dataLen entries := le_dataEnd _ _
    have htext := dataLen_le_textEnd entries
    omega
  exact ⟨_, unpack_words hrec hlowers hcall (fun _ => rfl) hsz,
    words_delivered hlowers h.supported.1 hrec.laid⟩

end Messages

/-- One run of a service that reads a message: the memory it found and what the function
behind it returned. -/
structure Served where
  call : ServiceCall
  mem : ℕ → Byte
  value : Word

/-- The heap, the memory that lanes and services share, and the messages read so far. -/
structure RemoteHost where
  heap : HostHeap
  /-- The length of each live block. -/
  size : Word → ℕ
  memory : ℕ → Byte
  served : List Served

/-- A lane makes the store `st` in the block at `p`. -/
def RemoteHost.write (h : RemoteHost) (p : Word) (st : Store) : RemoteHost :=
  { h with memory := Store.write p.toNat h.memory st }

/-- What a service leaves in its slot: what the function returned and two codes. -/
structure Answer where
  value : Word
  rc : Word
  err : Word

abbrev Functions := BitVec 32 → (ℕ → Byte) → ℕ → ℕ → Answer

/-- `execute_service` over heap and memory. `find` is the block that an allocation finds. -/
def remoteObject (find : RemoteHost → ServiceCall → Word) (functions : Functions) :
    HostObject RemoteHost := fun h call =>
  match allocates call.service_id, releases call.service_id with
  | some kind, _ =>
    let p := find h call
    ({ h with heap := h.heap.alloc p kind, size := Function.update h.size p (call.args 0).toNat },
      Function.update (Function.update call.args 0 0) 1 p)
  | none, some k =>
    let heap := h.heap.release (call.args k)
    if call.service_id ∈ messageServices then
      let a := functions call.service_id h.memory (call.args 1).toNat (call.args 0).toNat
      ({ h with heap := heap, served := h.served ++ [⟨call, h.memory, a.value⟩] },
        Function.update (Function.update (Function.update call.args 0 a.value) 1 a.rc) 2 a.err)
    else ({ h with heap := heap }, Function.update call.args 0 0)
  | none, none => (h, call.args)

/-- The protocol over the host, and what the lanes are about to send. -/
structure Remote (cfg : Config) where
  hosted : Hosted cfg RemoteHost
  plan : Fin cfg.waves → Fin 64 → Arguments.Call
  /-- How many stores into its buffer a lane has made. -/
  stored : Fin cfg.waves → Fin 64 → ℕ
  /-- History: what was sent with each call of `hostexec_invoke`. -/
  sent : ℕ → Fin 64 → Arguments.Call

def Remote.init (cfg : Config) (raw : Buffer) (memory : ℕ → Byte) : Remote cfg where
  hosted := Hosted.init cfg raw ⟨.init, fun _ => 0, memory, []⟩
  plan := fun _ _ => .printf (.literal []) []
  stored := fun _ _ => 0
  sent := fun _ _ => .printf (.literal []) []

inductive RemoteAction (cfg : Config)
  /-- A wave calls `hostexec_allocate` for what its lanes want to send. -/
  | ask (w : Fin cfg.waves) (req : Request) (calls : Fin 64 → Arguments.Call)
  /-- A lane makes its next store into its buffer. -/
  | store (w : Fin cfg.waves) (lane : Fin 64)
  /-- A wave calls the function that sends the buffers. -/
  | send (w : Fin cfg.waves) (service_id : BitVec 32)
  /-- A wave makes another call of `hostexec_invoke`. -/
  | other (w : Fin cfg.waves) (req : Request)
  | wave (w : Fin cfg.waves)
  | host
  /-- A lane or a host function writes to the memory that they share. -/
  | elsewhere (memory : ℕ → Byte)

def sendRequest (t : Wave) (plan : Fin 64 → Arguments.Call) (service_id : BitVec 32) : Request where
  service_id := service_id
  activemask := t.req.activemask
  args := fun l k =>
    if k = 0 then BitVec.ofNat 64 (bufferLen (plan l)) else if k = 1 then t.retval l 1 else 0
  active := t.req.active

def Remote.write (x : Remote cfg) (w : Fin cfg.waves) (lane : Fin 64) (st : Store) : Remote cfg :=
  { x with
    hosted := { x.hosted with
      host := x.hosted.host.write ((x.hosted.protocol.waves w).retval lane 1) st }
    stored := Function.update x.stored w
      (Function.update (x.stored w) lane (x.stored w lane + 1)) }

def remoteStep (obj : HostObject RemoteHost) (x : Remote cfg) :
    RemoteAction cfg → Option (Remote cfg)
  | .ask w req calls =>
    if req.service_id = HOSTEXEC_SID_HOST_MALLOC ∧ ¬ Filling x.hosted.protocol w ∧
        ∀ lane : Fin 64, laneActive req.activemask lane →
          req.args lane 0 = BitVec.ofNat 64 (bufferLen (calls lane)) then
      (hostedStep obj x.hosted (.invoke w req)).map fun y => { x with
        hosted := y
        plan := Function.update x.plan w calls
        stored := Function.update x.stored w fun _ => 0 }
    else none
  | .store w lane =>
    if Filling x.hosted.protocol w ∧
        laneActive (x.hosted.protocol.waves w).req.activemask lane then
      ((storesOf (x.plan w lane))[x.stored w lane]?).map (x.write w lane)
    else none
  | .send w service_id =>
    if Filling x.hosted.protocol w ∧ ∀ lane : Fin 64,
        laneActive (x.hosted.protocol.waves w).req.activemask lane →
          service_id ∈ callServices (x.plan w lane) ∧
          (storesOf (x.plan w lane)).length ≤ x.stored w lane then
      let req := sendRequest (x.hosted.protocol.waves w) (x.plan w) service_id
      (hostedStep obj x.hosted (.invoke w req)).map fun y => { x with
        hosted := y
        sent := Function.update x.sent x.hosted.protocol.calls (x.plan w) }
    else none
  | .other w req =>
    if ¬ Filling x.hosted.protocol w ∧ req.service_id ∉ messageServices ∧
        req.service_id ≠ HOSTEXEC_SID_HOST_MALLOC then
      (hostedStep obj x.hosted (.invoke w req)).map fun y => { x with hosted := y }
    else none
  | .wave w => (hostedStep obj x.hosted (.wave w)).map fun y => { x with hosted := y }
  | .host => (hostedStep obj x.hosted .host).map fun y => { x with hosted := y }
  | .elsewhere memory => some
      { x with hosted := { x.hosted with host := { x.hosted.host with memory := memory } } }

/-- The successors of a step. -/
inductive RemoteCase (obj : HostObject RemoteHost) (x : Remote cfg) :
    RemoteAction cfg → Remote cfg → Prop
  | ask (w : Fin cfg.waves) (req : Request) (calls : Fin 64 → Arguments.Call)
      {y : Hosted cfg RemoteHost} (hserv : req.service_id = HOSTEXEC_SID_HOST_MALLOC)
      (hfill : ¬ Filling x.hosted.protocol w)
      (hlen : ∀ lane : Fin 64, laneActive req.activemask lane →
        req.args lane 0 = BitVec.ofNat 64 (bufferLen (calls lane)))
      (hy : HostedCase obj x.hosted (.invoke w req) y) :
      RemoteCase obj x (.ask w req calls)
        { x with
          hosted := y
          plan := Function.update x.plan w calls
          stored := Function.update x.stored w fun _ => 0 }
  | store (w : Fin cfg.waves) (lane : Fin 64) {st : Store} (hfill : Filling x.hosted.protocol w)
      (hlane : laneActive (x.hosted.protocol.waves w).req.activemask lane)
      (hst : (storesOf (x.plan w lane))[x.stored w lane]? = some st) :
      RemoteCase obj x (.store w lane) (x.write w lane st)
  | send (w : Fin cfg.waves) (service_id : BitVec 32) {y : Hosted cfg RemoteHost}
      (hfill : Filling x.hosted.protocol w)
      (hready : ∀ lane : Fin 64, laneActive (x.hosted.protocol.waves w).req.activemask lane →
        service_id ∈ callServices (x.plan w lane) ∧
        (storesOf (x.plan w lane)).length ≤ x.stored w lane)
      (hy : HostedCase obj x.hosted
        (.invoke w (sendRequest (x.hosted.protocol.waves w) (x.plan w) service_id)) y) :
      RemoteCase obj x (.send w service_id)
        { x with
          hosted := y
          sent := Function.update x.sent x.hosted.protocol.calls (x.plan w) }
  | other (w : Fin cfg.waves) (req : Request) {y : Hosted cfg RemoteHost}
      (hfill : ¬ Filling x.hosted.protocol w) (hmessage : req.service_id ∉ messageServices)
      (hmalloc : req.service_id ≠ HOSTEXEC_SID_HOST_MALLOC)
      (hy : HostedCase obj x.hosted (.invoke w req) y) :
      RemoteCase obj x (.other w req) { x with hosted := y }
  | wave (w : Fin cfg.waves) {y : Hosted cfg RemoteHost}
      (hy : HostedCase obj x.hosted (.wave w) y) : RemoteCase obj x (.wave w) { x with hosted := y }
  | host {y : Hosted cfg RemoteHost} (hy : HostedCase obj x.hosted .host y) :
      RemoteCase obj x .host { x with hosted := y }
  | elsewhere (memory : ℕ → Byte) : RemoteCase obj x (.elsewhere memory)
      { x with hosted := { x.hosted with host := { x.hosted.host with memory := memory } } }

theorem remote_cases {obj : HostObject RemoteHost} {x x' : Remote cfg} {a : RemoteAction cfg}
    (h : remoteStep obj x a = some x') : RemoteCase obj x a x' := by
  cases a with
  | ask w req calls =>
    simp only [remoteStep] at h
    split_ifs at h with hok
    obtain ⟨y, hy, rfl⟩ := Option.map_eq_some_iff.mp h
    exact .ask w req calls hok.1 hok.2.1 hok.2.2 (hosted_cases hy)
  | store w lane =>
    simp only [remoteStep] at h
    split_ifs at h with hok
    obtain ⟨st, hst, rfl⟩ := Option.map_eq_some_iff.mp h
    exact .store w lane hok.1 hok.2 hst
  | send w service_id =>
    simp only [remoteStep] at h
    split_ifs at h with hok
    obtain ⟨y, hy, rfl⟩ := Option.map_eq_some_iff.mp h
    exact .send w service_id hok.1 hok.2 (hosted_cases hy)
  | other w req =>
    simp only [remoteStep] at h
    split_ifs at h with hok
    obtain ⟨y, hy, rfl⟩ := Option.map_eq_some_iff.mp h
    exact .other w req hok.1 hok.2.1 hok.2.2 (hosted_cases hy)
  | wave w =>
    obtain ⟨y, hy, rfl⟩ := Option.map_eq_some_iff.mp h
    exact .wave w (hosted_cases hy)
  | host =>
    obtain ⟨y, hy, rfl⟩ := Option.map_eq_some_iff.mp h
    exact .host (hosted_cases hy)
  | elsewhere memory =>
    obtain rfl := Option.some.inj h
    exact .elsewhere memory

/-- A block of `n` bytes at `p` that no live block touches. -/
structure Fresh (h : RemoteHost) (p : Word) (n : ℕ) : Prop where
  free : h.heap.blocks p = none
  aligned : 8 ∣ p.toNat
  space : p.toNat + n < 2 ^ 64
  apart : ∀ q, h.heap.blocks q ≠ none →
    p.toNat + n ≤ q.toNat ∨ q.toNat + h.size q ≤ p.toNat

/-- What is sent is within the limits of the emitted code, the device side heap frees its own
blocks, an allocation finds a fresh block, and nothing else writes to the message buffers. -/
def RemoteOk (find : RemoteHost → ServiceCall → Word) (x : Remote cfg) : RemoteAction cfg → Prop
  | .ask _ req calls => ∀ lane : Fin 64, laneActive req.activemask lane → Sendable (calls lane)
  | .other _ req => req.service_id = HOSTEXEC_SID_FREE →
    req.Frees x.hosted.protocol x.hosted.host.heap
  | .host => ∀ call, x.hosted.protocol.serviceCall = some call → allocates call.service_id ≠ none →
    Fresh x.hosted.host (find x.hosted.host call) (call.args 0).toNat
  | .elsewhere memory => ∀ p, x.hosted.host.heap.blocks p = some .message →
    ∀ i < x.hosted.host.size p, memory (p.toNat + i) = x.hosted.host.memory (p.toNat + i)
  | .store .. | .send .. | .wave _ => True

/-- The live blocks are aligned and apart. -/
structure Laid (h : RemoteHost) : Prop where
  aligned : ∀ p, h.heap.blocks p ≠ none → 8 ∣ p.toNat ∧ p.toNat + h.size p < 2 ^ 64
  apart : ∀ p q, h.heap.blocks p ≠ none → h.heap.blocks q ≠ none → p ≠ q →
    p.toNat + h.size p ≤ q.toNat ∨ q.toNat + h.size q ≤ p.toNat

/-- The first `k` stores of the message are in the block. -/
structure Contains (h : RemoteHost) (p : Word) (c : Arguments.Call) (k : ℕ) : Prop where
  sendable : Sendable c
  size : h.size p = bufferLen c
  bytes : ∃ mem₀, ∀ i < bufferLen c, h.memory (p.toNat + i) =
    Store.writeAll p.toNat mem₀ ((storesOf c).take k) (p.toNat + i)

/-- The run of a service and what it read: the message that the lane has sent. -/
structure ServedFor (functions : Functions) (sent : ℕ → Fin 64 → Arguments.Call) (run : Execution)
    (sv : Served) : Prop where
  call : run.serviceCall = sv.call
  result : run.result 0 = sv.value
  service : run.service_id ∈ callServices (sent run.call run.lane)
  arrives : Arrives (sent run.call run.lane) sv.mem (sv.call.args 1).toNat (sv.call.args 0).toNat
  value : sv.value = (functions sv.call.service_id sv.mem (sv.call.args 1).toNat
    (sv.call.args 0).toNat).value

def State.messageRuns (s : State cfg) : List Execution :=
  s.log.filter (·.service_id ∈ messageServices)

/-- All that is known of the messages in a state. -/
structure Underway (functions : Functions) (raw : Buffer) (x : Remote cfg) : Prop where
  reach : ReachesServing anyService raw x.hosted.protocol
  custody : Custody x.hosted.protocol x.hosted.host.heap
  laid : Laid x.hosted.host
  asked : ∀ (w : Fin cfg.waves) (lane : Fin 64),
    (x.hosted.protocol.waves w).req.service_id = HOSTEXEC_SID_HOST_MALLOC →
    laneActive (x.hosted.protocol.waves w).req.activemask lane → Sendable (x.plan w lane) ∧
      (x.hosted.protocol.waves w).req.args lane 0 = BitVec.ofNat 64 (bufferLen (x.plan w lane))
  unstored : ∀ w, (x.hosted.protocol.waves w).pc ≠ .idle →
    (x.hosted.protocol.waves w).req.service_id = HOSTEXEC_SID_HOST_MALLOC →
    ∀ lane, x.stored w lane = 0
  sent : ∀ (w : Fin cfg.waves) (lane : Fin 64), (x.hosted.protocol.waves w).pc ≠ .idle →
    (x.hosted.protocol.waves w).req.service_id ∈ messageServices →
    laneActive (x.hosted.protocol.waves w).req.activemask lane →
    (x.hosted.protocol.waves w).req.service_id ∈
      callServices (x.sent (x.hosted.protocol.waves w).call lane) ∧
    (x.hosted.protocol.waves w).req.args lane 0 =
      BitVec.ofNat 64 (bufferLen (x.sent (x.hosted.protocol.waves w).call lane))
  asking : ∀ w lane p, Holds x.hosted.protocol w lane p →
    (x.hosted.protocol.waves w).req.service_id = HOSTEXEC_SID_HOST_MALLOC →
    Contains x.hosted.host p (x.plan w lane) (x.stored w lane)
  sending : ∀ w lane p, Holds x.hosted.protocol w lane p →
    (x.hosted.protocol.waves w).req.service_id ∈ messageServices →
    Contains x.hosted.host p (x.sent (x.hosted.protocol.waves w).call lane)
      (storesOf (x.sent (x.hosted.protocol.waves w).call lane)).length
  served : List.Forall₂ (ServedFor functions x.sent) x.hosted.protocol.messageRuns
    x.hosted.host.served

variable {functions : Functions} {x : Remote cfg} {w : Fin cfg.waves} {lane : Fin 64} {p q : Word}
  {h h' : RemoteHost} {c : Arguments.Call} {k : ℕ}

theorem Contains.congr (hc : Contains h p c k) (hsize : h'.size p = h.size p)
    (hmem : ∀ i < h.size p, h'.memory (p.toNat + i) = h.memory (p.toNat + i)) :
    Contains h' p c k := by
  obtain ⟨hsend, hlen, mem₀, hbytes⟩ := hc
  refine ⟨hsend, hsize.trans hlen, mem₀, fun i hi => ?_⟩
  rw [hmem i (hlen ▸ hi), hbytes i hi]

theorem Contains.fresh (hsend : Sendable c) (hsize : h.size p = bufferLen c) : Contains h p c 0 :=
  ⟨hsend, hsize, h.memory, fun _ _ => by simp [Store.writeAll]⟩

theorem Store.write_congr {base a : ℕ} {mem mem' : ℕ → Byte} {st : Store} (hmem : mem a = mem' a) :
    st.write base mem a = st.write base mem' a := by
  unfold Store.write
  split_ifs
  · rfl
  · exact hmem

theorem Contains.write {st : Store} (hc : Contains h p c k) (hst : (storesOf c)[k]? = some st) :
    Contains (h.write p st) p c (k + 1) := by
  obtain ⟨hsend, hlen, mem₀, hbytes⟩ := hc
  refine ⟨hsend, hlen, mem₀, fun i hi => ?_⟩
  obtain ⟨hk, hget⟩ := List.getElem?_eq_some_iff.mp hst
  rw [List.take_succ_eq_append_getElem hk, hget, Store.writeAll, List.foldl_append]
  exact Store.write_congr (hbytes i hi)

theorem Contains.write_of_apart {st : Store} (hc : Contains h q c k)
    (hst : st.finish ≤ h.size p)
    (hapart : p.toNat + h.size p ≤ q.toNat ∨ q.toNat + h.size q ≤ p.toNat) :
    Contains (h.write p st) q c k := by
  refine hc.congr rfl fun i hi => ?_
  rcases hapart with hle | hle
  · apply Store.write_of_le
    omega
  · apply Store.write_of_lt
    omega

theorem Laid.congr (hl : Laid h) (hsize : h'.size = h.size)
    (hlive : ∀ p, h'.heap.blocks p ≠ none → h.heap.blocks p ≠ none) : Laid h' := by
  constructor
  · intro p hp
    rw [hsize]
    exact hl.aligned p (hlive p hp)
  · intro p q hp hq hne
    rw [hsize]
    exact hl.apart p q (hlive p hp) (hlive q hq) hne

theorem Laid.alloc (hl : Laid h) {n : ℕ} {kind : BlockKind} (hfresh : Fresh h p n) :
    Laid { h with heap := h.heap.alloc p kind, size := Function.update h.size p n } := by
  have hlive : ∀ q, q ≠ p → (h.heap.alloc p kind).blocks q ≠ none → h.heap.blocks q ≠ none := by
    intro q hne hq
    simpa [HostHeap.alloc, Function.update_of_ne hne] using hq
  constructor
  · intro q hq
    by_cases hqp : q = p
    · subst hqp
      simpa using ⟨hfresh.aligned, hfresh.space⟩
    · simpa [Function.update_of_ne hqp] using hl.aligned q (hlive q hqp hq)
  · intro q r hq hr hne
    by_cases hqp : q = p
    · subst hqp
      have hrq : r ≠ q := hne.symm
      simpa [Function.update_of_ne hrq] using hfresh.apart r (hlive r hrq hr)
    · by_cases hrp : r = p
      · subst hrp
        simpa [Function.update_of_ne hqp, or_comm] using hfresh.apart q (hlive q hqp hq)
      · simpa [Function.update_of_ne hqp, Function.update_of_ne hrp] using
          hl.apart q r (hlive q hqp hq) (hlive r hrp hr) hne

section Lanes

variable {raw : Buffer} {memory : ℕ → Byte}

theorem Underway.init (cfg : Config) (functions : Functions) (raw : Buffer) (memory : ℕ → Byte) :
    Underway functions raw (Remote.init cfg raw memory) := by
  have hnone : ∀ w lane p, ¬ Holds (State.init cfg raw) w lane p := by
    intro w lane p hp
    obtain ⟨⟨-, hserv⟩, -⟩ := hp.of_idle rfl
    revert hserv
    simp only [State.init]
    decide
  refine ⟨.refl, Custody.init cfg raw, ⟨fun p hp => ?_, fun p q hp => ?_⟩, fun w lane hserv => ?_,
    fun w hpc => absurd rfl hpc, fun w lane hpc => absurd rfl hpc,
    fun w lane p hp => absurd hp (hnone w lane p), fun w lane p hp => absurd hp (hnone w lane p),
    .nil⟩
  · exact absurd rfl hp
  · exact absurd rfl hp
  · have hdefault : (default : Request).service_id ≠ HOSTEXEC_SID_HOST_MALLOC := by decide
    exact absurd hserv hdefault

theorem Underway.held (h : Underway functions raw x) (hp : Holds x.hosted.protocol w lane p) :
    x.hosted.host.heap.blocks p ≠ none := by
  rw [h.custody.live w lane p hp]
  simp

/-- A lane stores into its own buffer, so the buffers of the others stay. -/
theorem Underway.store (h : Underway functions raw x) {st : Store}
    (hfill : Filling x.hosted.protocol w)
    (hlane : laneActive (x.hosted.protocol.waves w).req.activemask lane)
    (hst : (storesOf (x.plan w lane))[x.stored w lane]? = some st) :
    Underway functions raw (x.write w lane st) := by
  have hself : Holds x.hosted.protocol w lane ((x.hosted.protocol.waves w).retval lane 1) :=
    .filling hfill.2 hfill.1 hlane rfl
  have hcontains := h.asking w lane _ hself hfill.2
  have hle : st.finish ≤ x.hosted.host.size ((x.hosted.protocol.waves w).retval lane 1) := by
    rw [hcontains.size]
    exact hcontains.sendable.store_le (List.mem_of_getElem? hst)
  have hother : ∀ v l q c k, Holds x.hosted.protocol v l q → ¬ (v = w ∧ l = lane) →
      Contains x.hosted.host q c k →
      Contains (x.hosted.host.write ((x.hosted.protocol.waves w).retval lane 1) st) q c k := by
    intro v l q c k hq hne hc
    refine hc.write_of_apart hle (h.laid.apart _ _ (h.held hself) (h.held hq) ?_)
    rintro rfl
    exact hne (h.custody.inj v l _ w lane hq hself)
  refine ⟨h.reach, h.custody, h.laid.congr rfl fun _ hp => hp, h.asked, fun v hpc hserv l => ?_,
    h.sent, fun v l q hq hserv => ?_, fun v l q hq hserv => ?_, h.served⟩
  · have hv : v ≠ w := by
      rintro rfl
      exact hpc hfill.1
    simpa [Remote.write, Function.update_of_ne hv] using h.unstored v hpc hserv l
  · by_cases hself' : v = w ∧ l = lane
    · obtain ⟨rfl, rfl⟩ := hself'
      obtain ⟨-, -, rfl⟩ := Holds.of_idle hq hfill.1
      simpa only [Remote.write, Function.update_self] using hcontains.write hst
    · have hstored : (x.write w lane st).stored v l = x.stored v l := by
        by_cases hv : v = w
        · subst hv
          have hl : l ≠ lane := fun hl => hself' ⟨rfl, hl⟩
          simp [Remote.write, Function.update_of_ne hl]
        · simp [Remote.write, Function.update_of_ne hv]
      rw [hstored]
      exact hother v l q _ _ hq hself' (h.asking v l q hq hserv)
  · refine hother v l q _ _ hq ?_ (h.sending v l q hq hserv)
    rintro ⟨rfl, -⟩
    exact host_malloc_notMem (hfill.2 ▸ hserv)

theorem Underway.elsewhere (h : Underway functions raw x)
    (hmem : ∀ p, x.hosted.host.heap.blocks p = some .message →
      ∀ i < x.hosted.host.size p, memory (p.toNat + i) = x.hosted.host.memory (p.toNat + i)) :
    Underway functions raw
      { x with hosted := { x.hosted with host := { x.hosted.host with memory := memory } } } := by
  refine ⟨h.reach, h.custody, h.laid.congr rfl fun _ hp => hp, h.asked, h.unstored, h.sent,
    fun w lane p hp hserv => ?_, fun w lane p hp hserv => ?_, h.served⟩
  · refine (h.asking w lane p hp hserv).congr rfl fun i hi => hmem p ?_ i hi
    rw [h.custody.live w lane p hp, hserv]
    rfl
  · refine (h.sending w lane p hp hserv).congr rfl fun i hi => hmem p ?_ i hi
    rw [h.custody.live w lane p hp, heldKind_of_message hserv]

end Lanes

section Invoke

variable {req : Request} {history : List (Event ℕ Request (List Slot))}
  {plan : Fin cfg.waves → Fin 64 → Arguments.Call} {stored : Fin cfg.waves → Fin 64 → ℕ}
  {sent : ℕ → Fin 64 → Arguments.Call}

theorem afterInvoke_self {s : State cfg} : (afterInvoke s w req).waves w =
    { s.waves w with pc := .pop .load, req := req, call := s.calls } := Function.update_self ..

theorem afterInvoke_of_ne {s : State cfg} {v : Fin cfg.waves} (hv : v ≠ w) :
    (afterInvoke s w req).waves v = s.waves v := Function.update_of_ne hv _ _

/-- What a call must come with: the lanes' wishes or their messages. -/
theorem Underway.invoke (h : Underway functions raw x)
    (hreach : ReachesServing anyService raw (afterInvoke x.hosted.protocol w req))
    (hpc : (x.hosted.protocol.waves w).pc = .idle)
    (hok : req.Disciplined x.hosted.protocol x.hosted.host.heap w)
    (hplan : ∀ v, v ≠ w → plan v = x.plan v) (hstored : ∀ v, v ≠ w → stored v = x.stored v)
    (hsent : ∀ call < x.hosted.protocol.calls, sent call = x.sent call)
    (hasks : req.service_id = HOSTEXEC_SID_HOST_MALLOC → ∀ lane : Fin 64, stored w lane = 0 ∧
      (laneActive req.activemask lane → Sendable (plan w lane) ∧
        req.args lane 0 = BitVec.ofNat 64 (bufferLen (plan w lane))))
    (hsends : req.service_id ∈ messageServices → ∀ lane : Fin 64, laneActive req.activemask lane →
      req.service_id ∈ callServices (sent x.hosted.protocol.calls lane) ∧
      req.args lane 0 = BitVec.ofNat 64 (bufferLen (sent x.hosted.protocol.calls lane)) ∧
      Contains x.hosted.host (req.args lane 1) (sent x.hosted.protocol.calls lane)
        (storesOf (sent x.hosted.protocol.calls lane)).length) :
    Underway functions raw
      ⟨⟨afterInvoke x.hosted.protocol w req, x.hosted.host, history⟩, plan, stored, sent⟩ := by
  have hm := h.reach.matched
  have hruns : x.hosted.protocol.runsOf x.hosted.protocol.calls = [] := by
    rw [State.runsOf, List.filter_eq_nil_iff]
    intro e he
    have := (hm.log e he).1.lt hm.numbered
    simp only [decide_eq_true_eq]
    omega
  have hself : ∀ l p, Holds (afterInvoke x.hosted.protocol w req) w l p →
      ∃ k, releases req.service_id = some k ∧ laneActive req.activemask l ∧ req.args l k = p :=
    fun l p hp => (holds_afterInvoke_self hruns).mp hp
  have holdsent : ∀ v, (x.hosted.protocol.waves v).pc ≠ .idle →
      sent (x.hosted.protocol.waves v).call = x.sent (x.hosted.protocol.waves v).call :=
    fun v hv => hsent _ (hm.numbered.lt v hv)
  refine ⟨hreach, h.custody.invoke hm hok hpc, h.laid, fun v l hserv hlane => ?_,
    fun v hv hserv l => ?_, fun v l hv hserv hlane => ?_, fun v l p hp hserv => ?_,
    fun v l p hp hserv => ?_, ?_⟩
  · by_cases hvw : v = w
    · subst hvw
      simp only [afterInvoke_self] at hserv hlane ⊢
      exact (hasks hserv l).2 hlane
    · simp only [afterInvoke_of_ne hvw] at hserv hlane ⊢
      rw [hplan v hvw]
      exact h.asked v l hserv hlane
  · by_cases hvw : v = w
    · subst hvw
      simp only [afterInvoke_self] at hserv
      exact (hasks hserv l).1
    · simp only [afterInvoke_of_ne hvw] at hv hserv
      simpa only [hstored v hvw] using h.unstored v hv hserv l
  · by_cases hvw : v = w
    · subst hvw
      simp only [afterInvoke_self] at hserv hlane ⊢
      obtain ⟨hservice, hlen, -⟩ := hsends hserv l hlane
      exact ⟨hservice, hlen⟩
    · simp only [afterInvoke_of_ne hvw] at hv hserv hlane ⊢
      rw [holdsent v hv]
      exact h.sent v l hv hserv hlane
  · by_cases hvw : v = w
    · subst hvw
      simp only [afterInvoke_self] at hserv
      obtain ⟨k, hk, -⟩ := hself l p hp
      rw [hserv, releases_host_malloc] at hk
      simp at hk
    · simp only [afterInvoke_of_ne hvw] at hserv
      simp only [hplan v hvw, hstored v hvw]
      exact h.asking v l p ((holds_afterInvoke_of_ne hvw).mp hp) hserv
  · by_cases hvw : v = w
    · subst hvw
      simp only [afterInvoke_self] at hserv ⊢
      obtain ⟨k, hk, hlane, rfl⟩ := hself l p hp
      obtain rfl : 1 = k := Option.some.inj ((releases_of_message hserv).symm.trans hk)
      exact (hsends hserv l hlane).2.2
    · simp only [afterInvoke_of_ne hvw] at hserv ⊢
      have hold := (holds_afterInvoke_of_ne hvw).mp hp
      have hv : (x.hosted.protocol.waves v).pc ≠ .idle := by
        intro hidle
        exact host_malloc_notMem ((hold.of_idle hidle).1.2 ▸ hserv)
      rw [holdsent v hv]
      exact h.sending v l p hold hserv
  · -- what ran before belongs to calls made before
    obtain ⟨hlength, hserved⟩ := List.forall₂_iff_zip.mp h.served
    refine List.forall₂_iff_zip.mpr ⟨hlength, fun {run sv} hmem => ?_⟩
    obtain ⟨hcall, hresult, hservice, harrives, hvalue⟩ := hserved hmem
    have hlog : run ∈ x.hosted.protocol.log := (List.mem_filter.mp (List.of_mem_zip hmem).1).1
    rw [← hsent run.call ((hm.log run hlog).1.lt hm.numbered)] at hservice harrives
    exact ⟨hcall, hresult, hservice, harrives, hvalue⟩

end Invoke

section Protocol

variable {s' : State cfg} {history : List (Event ℕ Request (List Slot))}

/-- A step that makes no call: the messages that waves held before are still there, and those
that they get are as they asked. -/
theorem Underway.congr (h : Underway functions raw x) (hreach : ReachesServing anyService raw s')
    (hcust : Custody s' h'.heap) (hlaid : Laid h')
    (hcall : ∀ v, (s'.waves v).call = (x.hosted.protocol.waves v).call)
    (hreq : ∀ v, (s'.waves v).req = (x.hosted.protocol.waves v).req)
    (hactive : ∀ v, (s'.waves v).pc ≠ .idle → (x.hosted.protocol.waves v).pc ≠ .idle)
    (hold : ∀ v l p, Holds s' v l p → Holds x.hosted.protocol v l p →
      ∀ c k, Contains x.hosted.host p c k → Contains h' p c k)
    (hnew : ∀ v l p, Holds s' v l p → ¬ Holds x.hosted.protocol v l p →
      (s'.waves v).req.service_id = HOSTEXEC_SID_HOST_MALLOC ∧
        Contains h' p (x.plan v l) (x.stored v l))
    (hserved : List.Forall₂ (ServedFor functions x.sent) s'.messageRuns h'.served) :
    Underway functions raw { x with hosted := ⟨s', h', history⟩ } := by
  refine ⟨hreach, hcust, hlaid, fun v l hserv hlane => ?_, fun v hv hserv => ?_,
    fun v l hv hserv hlane => ?_, fun v l p hp hserv => ?_, fun v l p hp hserv => ?_, hserved⟩
  · simp only [hreq] at hserv hlane ⊢
    exact h.asked v l hserv hlane
  · simp only [hreq] at hserv
    exact h.unstored v (hactive v hv) hserv
  · simp only [hreq, hcall] at hserv hlane ⊢
    exact h.sent v l (hactive v hv) hserv hlane
  · by_cases hx : Holds x.hosted.protocol v l p
    · simp only [hreq] at hserv
      exact hold v l p hp hx _ _ (h.asking v l p hx hserv)
    · exact (hnew v l p hp hx).2
  · by_cases hx : Holds x.hosted.protocol v l p
    · simp only [hreq, hcall] at hserv ⊢
      exact hold v l p hp hx _ _ (h.sending v l p hx hserv)
    · exact absurd ((hnew v l p hp hx).1 ▸ hserv) host_malloc_notMem

theorem Underway.wave (h : Underway functions raw x) (hreach : ReachesServing anyService raw s')
    (hw : WaveCase x.hosted.protocol w s') :
    Underway functions raw { x with hosted := ⟨s', x.hosted.host, history⟩ } := by
  obtain ⟨hlog, -, hcall, hreq, hactive⟩ := hw.sameCalls
  have hholds : ∀ v l p, Holds s' v l p → Holds x.hosted.protocol v l p :=
    fun _ _ _ => (hw.holds_iff hreach.matched).mp
  refine h.congr hreach (h.custody.wave hreach.matched hw) h.laid hcall hreq hactive
    (fun _ _ _ _ _ _ _ hc => hc) (fun v l p hp hx => absurd (hholds v l p hp) hx) ?_
  rw [State.messageRuns, hlog]
  exact h.served

theorem Underway.quiet (h : Underway functions raw x) (hreach : ReachesServing anyService raw s')
    (hs : QuietHost x.hosted.protocol s') :
    Underway functions raw { x with hosted := ⟨s', x.hosted.host, history⟩ } := by
  have hwave : ∀ v, s'.waves v = x.hosted.protocol.waves v := fun v => by rw [hs.waves]
  refine h.congr hreach (h.custody.quiet hs) h.laid (fun v => by rw [hwave])
    (fun v => by rw [hwave]) (fun v hv => by rwa [hwave] at hv)
    (fun _ _ _ _ _ _ _ hc => hc) (fun v l p hp hx => absurd (hs.holds_iff.mp hp) hx) ?_
  rw [State.messageRuns, hs.log]
  exact h.served

variable {call : ServiceCall} {out : Slot}

theorem ServesLane.messageRuns (hserves : ServesLane x.hosted.protocol s' call out w lane)
    (hcall : call.service_id ∉ messageServices) :
    s'.messageRuns = x.hosted.protocol.messageRuns := by
  obtain ⟨e, -, -, rfl, -, hlog⟩ := hserves.run
  rw [State.messageRuns, State.messageRuns, hlog, List.filter_append, List.filter_singleton]
  have hne : e.service_id ∉ messageServices := hcall
  simp [hne]

theorem allocates_notMem {service_id : BitVec 32} {kind : BlockKind}
    (h : allocates service_id = some kind) : service_id ∉ messageServices := by
  rcases allocates_eq_some h with ⟨rfl, -⟩ | ⟨rfl, -⟩ <;> decide

/-- A lane that asked for a buffer gets a block of the length of its message. -/
theorem Underway.alloc (h : Underway functions raw x) (hreach : ReachesServing anyService raw s')
    (hserves : ServesLane x.hosted.protocol s' call out w lane) {kind : BlockKind}
    (hkind : allocates call.service_id = some kind)
    (hfresh : Fresh x.hosted.host p (call.args 0).toNat) (hout : out 1 = p)
    (hhost : h' = { x.hosted.host with
      heap := x.hosted.host.heap.alloc p kind
      size := Function.update x.hosted.host.size p (call.args 0).toNat }) :
    Underway functions raw { x with hosted := ⟨s', h', history⟩ } := by
  subst hhost
  have hm := h.reach.matched
  have hwave : ∀ v, s'.waves v = x.hosted.protocol.waves v := fun v => by rw [hserves.waves]
  refine h.congr hreach (h.custody.alloc hm hserves hkind hfresh.free rfl hout) (h.laid.alloc hfresh)
    (fun v => by rw [hwave]) (fun v => by rw [hwave]) (fun v hv => by rwa [hwave] at hv)
    (fun v l q hq hx c k hc => ?_) (fun v l q hq hx => ?_) ?_
  · have hqp : q ≠ p := by
      rintro rfl
      exact h.held hx hfresh.free
    exact hc.congr (Function.update_of_ne hqp _ _) fun _ _ => rfl
  · rcases allocates_eq_some hkind with ⟨hserv, -⟩ | ⟨hserv, -⟩
    · have hvw : v = w := by
        by_contra hvw
        exact hx ((hserves.holds_of_ne hm hvw).mp hq)
      subst hvw
      rw [hserves.holds_malloc hserv, hout] at hq
      obtain ⟨rfl, rfl⟩ := hq.resolve_left hx
      have hreq := hserves.service.symm.trans hserv
      obtain ⟨hsend, hlen⟩ := h.asked v l hreq hserves.mask
      refine ⟨by rw [hwave]; exact hreq, ?_⟩
      rw [h.unstored v hserves.active hreq]
      apply Contains.fresh hsend
      have hlt : bufferLen (x.plan v l) < 2 ^ 64 := (bufferLen_lt _).trans (by norm_num)
      rw [hserves.args, hlen]
      simpa using hlt
    · exact absurd ((hserves.holds_device hm hserv).mp hq) hx
  · rw [hserves.messageRuns (allocates_notMem hkind)]
    exact h.served

theorem HostHeap.live_of_release {heap : HostHeap} (hq : (heap.release p).blocks q ≠ none) :
    heap.blocks q ≠ none := by
  unfold HostHeap.release at hq
  split_ifs at hq with hp
  · exact hq
  · by_cases hqp : q = p
    · subst hqp
      exact hp
    · simpa [Function.update_of_ne hqp] using hq

theorem Laid.release (hl : Laid h) {served : List Served} :
    Laid { h with heap := h.heap.release p, served := served } :=
  hl.congr rfl fun _ => HostHeap.live_of_release

theorem Underway.free (h : Underway functions raw x) (hreach : ReachesServing anyService raw s')
    (hserves : ServesLane x.hosted.protocol s' call out w lane) {k : Fin 8}
    (hk : releases call.service_id = some k) (hcall : call.service_id ∉ messageServices)
    (hhost : h' = { x.hosted.host with heap := x.hosted.host.heap.release (call.args k) }) :
    Underway functions raw { x with hosted := ⟨s', h', history⟩ } := by
  subst hhost
  have hm := h.reach.matched
  have hwave : ∀ v, s'.waves v = x.hosted.protocol.waves v := fun v => by rw [hserves.waves]
  refine h.congr hreach (h.custody.release hm hserves hk rfl) h.laid.release
    (fun v => by rw [hwave]) (fun v => by rw [hwave]) (fun v hv => by rwa [hwave] at hv)
    (fun _ _ _ _ _ _ _ hc => hc.congr rfl fun _ _ => rfl)
    (fun v l q hq hx => absurd (hserves.holds_before hm hk hq) hx) ?_
  rw [hserves.messageRuns hcall]
  exact h.served

/-- A service reads the message that the lane has sent. -/
theorem Underway.message (h : Underway functions raw x) (hreach : ReachesServing anyService raw s')
    (hserves : ServesLane x.hosted.protocol s' call out w lane)
    (hcall : call.service_id ∈ messageServices)
    (hout : out 0 = (functions call.service_id x.hosted.host.memory (call.args 1).toNat
      (call.args 0).toNat).value)
    (hhost : h' = { x.hosted.host with
      heap := x.hosted.host.heap.release (call.args 1)
      served := x.hosted.host.served ++ [⟨call, x.hosted.host.memory, out 0⟩] }) :
    Underway functions raw { x with hosted := ⟨s', h', history⟩ } := by
  subst hhost
  have hm := h.reach.matched
  have hk := releases_of_message hcall
  have hwave : ∀ v, s'.waves v = x.hosted.protocol.waves v := fun v => by rw [hserves.waves]
  refine h.congr hreach (h.custody.release hm hserves hk rfl) h.laid.release
    (fun v => by rw [hwave]) (fun v => by rw [hwave]) (fun v hv => by rwa [hwave] at hv)
    (fun _ _ _ _ _ _ _ hc => hc.congr rfl fun _ _ => rfl)
    (fun v l q hq hx => absurd (hserves.holds_before hm hk hq) hx) ?_
  obtain ⟨e, hecall, helane, rfl, rfl, hlog⟩ := hserves.run
  have hservice : e.service_id = (x.hosted.protocol.waves w).req.service_id := hserves.service
  have hmessage : (x.hosted.protocol.waves w).req.service_id ∈ messageServices := hservice ▸ hcall
  have hruns : s'.messageRuns = x.hosted.protocol.messageRuns ++ [e] := by
    have hmem : e.service_id ∈ messageServices := hcall
    rw [State.messageRuns, State.messageRuns, hlog, List.filter_append, List.filter_singleton]
    simp [hmem]
  rw [hruns]
  refine List.rel_append h.served (.cons ?_ .nil)
  obtain ⟨hsid, hlen⟩ := h.sent w lane hserves.active hmessage hserves.mask
  have hself : Holds x.hosted.protocol w lane (e.serviceCall.args 1) :=
    .sending 1 (by rw [← hservice]; exact hk) hserves.active hserves.mask hserves.new
      (by rw [hserves.args])
  obtain ⟨hsend, hsize, mem₀, hbytes⟩ := h.sending w lane _ hself hmessage
  obtain ⟨haligned, hspace⟩ := h.laid.aligned _ (h.held hself)
  rw [hsize] at hspace
  rw [List.take_length] at hbytes
  have hlt : bufferLen (x.sent (x.hosted.protocol.waves w).call lane) < 2 ^ 64 :=
    (bufferLen_lt _).trans (by norm_num)
  have hbufsz : (e.serviceCall.args 0).toNat =
      bufferLen (x.sent (x.hosted.protocol.waves w).call lane) := by
    rw [hserves.args, hlen]
    simpa using hlt
  refine ⟨rfl, rfl, ?_, ?_, hout⟩
  · rw [hecall, helane, hservice]
    exact hsid
  · rw [hecall, helane, hbufsz]
    exact hsend.arrives haligned hspace hbytes

end Protocol

section Run

variable {find : RemoteHost → ServiceCall → Word} {memory : ℕ → Byte} {x' : Remote cfg}
  {a : RemoteAction cfg}

theorem callServices_ne_malloc {service_id : BitVec 32} (h : service_id ∈ callServices c) :
    service_id ≠ HOSTEXEC_SID_HOST_MALLOC := by
  rintro rfl
  exact host_malloc_notMem (callServices_message h)

theorem message_ne_free {service_id : BitVec 32} (h : service_id ∈ messageServices) :
    service_id ≠ HOSTEXEC_SID_FREE := by
  rintro rfl
  revert h
  decide

theorem Underway.send (h : Underway functions raw x) {service_id : BitVec 32}
    {history : List (Event ℕ Request (List Slot))} (hfill : Filling x.hosted.protocol w)
    (hready : ∀ lane : Fin 64, laneActive (x.hosted.protocol.waves w).req.activemask lane →
      service_id ∈ callServices (x.plan w lane) ∧
      (storesOf (x.plan w lane)).length ≤ x.stored w lane)
    (hreach : ReachesServing anyService raw (afterInvoke x.hosted.protocol w
      (sendRequest (x.hosted.protocol.waves w) (x.plan w) service_id))) :
    Underway functions raw
      ⟨⟨afterInvoke x.hosted.protocol w
          (sendRequest (x.hosted.protocol.waves w) (x.plan w) service_id), x.hosted.host, history⟩,
        x.plan, x.stored, Function.update x.sent x.hosted.protocol.calls (x.plan w)⟩ := by
  obtain ⟨l, hl⟩ := List.exists_mem_of_ne_nil _
    (activeLanes_ne_nil (x.hosted.protocol.waves w).req.active)
  have hservice := (hready l (List.mem_filter.mp hl).2).1
  have hmessage := callServices_message hservice
  refine h.invoke hreach hfill.1 ⟨fun _ => ⟨hmessage, rfl, fun _ _ => rfl⟩,
    fun hnot => absurd hfill hnot, fun hfree => absurd hfree (message_ne_free hmessage)⟩
    (fun _ _ => rfl) (fun _ _ => rfl) (fun call hcall => Function.update_of_ne hcall.ne _ _)
    (fun hmalloc => absurd hmalloc (callServices_ne_malloc hservice)) fun _ lane hlane => ?_
  obtain ⟨hlaneservice, hstores⟩ := hready lane hlane
  rw [Function.update_self]
  refine ⟨hlaneservice, rfl, ?_⟩
  -- all stores are made, and the block is the one that the lane has got
  obtain ⟨hsend, hsize, mem₀, hbytes⟩ := h.asking w lane _ (.filling hfill.2 hfill.1 hlane rfl) hfill.2
  rw [List.take_of_length_le hstores] at hbytes
  refine ⟨hsend, hsize, mem₀, ?_⟩
  rw [List.take_length]
  exact hbytes

theorem Underway.host (h : Underway functions raw x) {y : Hosted cfg RemoteHost}
    (hok : RemoteOk find x .host) (hreach : ReachesServing anyService raw y.protocol)
    (hy : HostedCase (remoteObject find functions) x.hosted .host y) :
    Underway functions raw { x with hosted := y } := by
  have hm := h.reach.matched
  obtain ⟨L, hinv⟩ := h.reach.reaches.inv
  cases hy with
  | quiet hcall hs => exact h.quiet hreach ((hostStep_cases hs).quiet hcall)
  | @execute call s hcall hs =>
    obtain ⟨w, lane, hserves⟩ := (hostStep_cases hs).serves hcall hm hinv hreach.matched
    obtain ⟨l, -, -, hexec, hservice⟩ := serviceCall_eq_some hcall
    replace hexec : call.service_id ∈ executableServices := by
      rw [hservice]
      exact hexec
    cases hkind : allocates call.service_id with
    | some kind =>
      refine h.alloc hreach hserves hkind (hok call hcall (by simp [hkind])) ?_ ?_
      · simp [remoteObject, hkind]
      · simp [remoteObject, hkind]
    | none =>
      cases hk : releases call.service_id with
      | none =>
        rcases executable_allocates_or_releases hexec with hsome | hsome
        · simp [hkind] at hsome
        · simp [hk] at hsome
      | some k =>
        by_cases hmessage : call.service_id ∈ messageServices
        · obtain rfl : 1 = k := Option.some.inj ((releases_of_message hmessage).symm.trans hk)
          refine h.message hreach hserves hmessage ?_ ?_
          · simp [remoteObject, hkind, hk, hmessage]
          · simp [remoteObject, hkind, hk, hmessage]
        · refine h.free hreach hserves hk hmessage ?_
          simp [remoteObject, hkind, hk, hmessage]

theorem Underway.step (h : Underway functions raw x) (hwrap : NoTagWrap x.hosted.protocol)
    (hok : RemoteOk find x a) (hs : remoteStep (remoteObject find functions) x a = some x') :
    Underway functions raw x' := by
  cases remote_cases hs with
  | ask w req calls hserv hfill hlen hy =>
    cases hy with
    | invoke _ _ hp =>
      have hreach := h.reach.tail ⟨hwrap, serves_anyService _ _⟩ hp
      cases step_cases hp with
      | invoke _ _ hpc =>
        have hne : req.service_id ∉ messageServices := hserv ▸ host_malloc_notMem
        refine h.invoke hreach hpc ⟨fun hf => absurd hf hfill, fun _ => hne, fun hfree => ?_⟩
          (fun v hv => Function.update_of_ne hv _ _) (fun v hv => Function.update_of_ne hv _ _)
          (fun _ _ => rfl) (fun _ l => ⟨by simp, fun hl => ?_⟩) fun hmem => absurd hmem hne
        · rw [hserv] at hfree
          exact absurd hfree (by decide)
        · rw [Function.update_self]
          exact ⟨hok l hl, hlen l hl⟩
  | store w lane hfill hlane hst => exact h.store hfill hlane hst
  | send w service_id hfill hready hy =>
    cases hy with
    | invoke _ _ hp =>
      have hreach := h.reach.tail ⟨hwrap, serves_anyService _ _⟩ hp
      cases step_cases hp with
      | invoke => exact h.send hfill hready hreach
  | other w req hfill hmessage hmalloc hy =>
    cases hy with
    | invoke _ _ hp =>
      have hreach := h.reach.tail ⟨hwrap, serves_anyService _ _⟩ hp
      cases step_cases hp with
      | invoke _ _ hpc =>
        exact h.invoke hreach hpc ⟨fun hf => absurd hf hfill, fun _ => hmessage, hok⟩
          (fun _ _ => rfl) (fun _ _ => rfl) (fun _ _ => rfl) (fun hc => absurd hc hmalloc)
          fun hc => absurd hc hmessage
  | wave w hy =>
    cases hy with
    | wave _ hw =>
      exact h.wave (h.reach.tail ⟨hwrap, serves_anyService _ (.wave w)⟩ hw) (waveStep_cases hw)
  | host hy =>
    obtain ⟨b, hb⟩ := hy.protocol
    exact h.host hok (h.reach.tail ⟨hwrap, serves_anyService _ b⟩ hb) hy
  | elsewhere memory => exact h.elsewhere hok

end Run

end Aomp.Hostexec
