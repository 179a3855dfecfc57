import Aomp.Hostexec.Linearizability

/-!
# Message buffers

A wave that calls a host function first asks the host for a buffer, one for each active
lane, stores the arguments there and passes the pointer to the service, which reads the
buffer and frees it. The two calls and those of other waves interleave in any order.
A live buffer is held by one lane of one wave from the allocation to the release.
-/
namespace Aomp.Hostexec

open Foundations

variable {cfg : Config} {raw : Buffer}

/-- What a block was allocated for. -/
inductive BlockKind
  /-- `HOST_MALLOC`: fine grain memory for a message. -/
  | message
  /-- `DEVICE_MALLOC`: memory of the device side heap. -/
  | device
  deriving DecidableEq

/-- The live blocks, and whether a block was read or freed that is not live. -/
structure HostHeap where
  blocks : Word → Option BlockKind
  fault : Bool

def HostHeap.init : HostHeap := ⟨fun _ => none, false⟩

/-- `host_malloc` and `device_malloc` with the block that they find. -/
def HostHeap.alloc (h : HostHeap) (p : Word) (kind : BlockKind) : HostHeap :=
  { h with blocks := Function.update h.blocks p (some kind) }

/-- The service reads the block, where it does, and `host_device_mem_free` releases it. -/
def HostHeap.release (h : HostHeap) (p : Word) : HostHeap :=
  if h.blocks p = none then { h with fault := true }
  else { h with blocks := Function.update h.blocks p none }

def allocates (service_id : BitVec 32) : Option BlockKind :=
  if service_id = HOSTEXEC_SID_HOST_MALLOC then some .message
  else if service_id = HOSTEXEC_SID_DEVICE_MALLOC then some .device
  else none

/-- The services that read a message and free it. -/
def messageServices : List (BitVec 32) :=
  [HOSTEXEC_SID_PRINTF, HOSTEXEC_SID_FPRINTF, HOSTEXEC_SID_VOID, HOSTEXEC_SID_UINT,
    HOSTEXEC_SID_UINT64, HOSTEXEC_SID_DOUBLE, HOSTEXEC_SID_INT, HOSTEXEC_SID_LONG,
    HOSTEXEC_SID_FLOAT, HOSTEXEC_SID_FORTRT]

def releases (service_id : BitVec 32) : Option (Fin 8) :=
  if service_id ∈ messageServices then some 1
  else if service_id = HOSTEXEC_SID_FREE then some 0
  else none

/-- `execute_service` as far as it concerns the heap. `find` is the block that an allocation
finds, and `answer` what the other services leave in their slot. -/
def heapObject (find : HostHeap → Word) (answer : HostHeap → ServiceCall → Slot) :
    HostObject HostHeap := fun h call =>
  match allocates call.service_id, releases call.service_id with
  | some kind, _ =>
    (h.alloc (find h) kind, Function.update (Function.update call.args 0 0) 1 (find h))
  | none, some k => (h.release (call.args k), answer h call)
  | none, none => (h, answer h call)

/-- The lane of the wave is responsible for the block. -/
inductive Holds (s : State cfg) (w : Fin cfg.waves) (lane : Fin 64) (p : Word) : Prop
  /-- The lane asked for a message buffer and the host has allocated it. -/
  | allocating (hreq : (s.waves w).req.service_id = HOSTEXEC_SID_HOST_MALLOC)
      (hpc : (s.waves w).pc ≠ .idle) (e : Execution) (he : e ∈ s.runsOf (s.waves w).call)
      (hlane : e.lane = lane) (hp : e.result 1 = p)
  /-- The lane has got the buffer and may store into it. -/
  | filling (hreq : (s.waves w).req.service_id = HOSTEXEC_SID_HOST_MALLOC)
      (hpc : (s.waves w).pc = .idle) (hlane : laneActive (s.waves w).req.activemask lane)
      (hp : (s.waves w).retval lane 1 = p)
  /-- The lane hands the block over and the host has not come to it. -/
  | sending (k : Fin 8) (hreq : releases (s.waves w).req.service_id = some k)
      (hpc : (s.waves w).pc ≠ .idle) (hlane : laneActive (s.waves w).req.activemask lane)
      (hnew : ∀ e ∈ s.runsOf (s.waves w).call, e.lane ≠ lane)
      (hp : (s.waves w).req.args lane k = p)

/-- The wave has got message buffers and not sent them. -/
def Filling (s : State cfg) (w : Fin cfg.waves) : Prop :=
  (s.waves w).pc = .idle ∧ (s.waves w).req.service_id = HOSTEXEC_SID_HOST_MALLOC

instance (s : State cfg) (w : Fin cfg.waves) : Decidable (Filling s w) :=
  inferInstanceAs (Decidable (_ ∧ _))

/-- The request hands over the buffers that the wave has got, with the same lanes. -/
structure Request.Sends (req : Request) (t : Wave) : Prop where
  service : req.service_id ∈ messageServices
  lanes : req.activemask = t.req.activemask
  buffers : ∀ lane : Fin 64, laneActive req.activemask lane → req.args lane 1 = t.retval lane 1

/-- The lanes free blocks of the device side heap, each its own and none that a wave holds. -/
structure Request.Frees (req : Request) (s : State cfg) (heap : HostHeap) : Prop where
  device : ∀ lane : Fin 64, laneActive req.activemask lane →
    heap.blocks (req.args lane 0) = some .device
  free : ∀ lane : Fin 64, laneActive req.activemask lane →
    ∀ w l, ¬ Holds s w l (req.args lane 0)
  apart : ∀ lane l : Fin 64, laneActive req.activemask lane → laneActive req.activemask l →
    req.args lane 0 = req.args l 0 → lane = l

/-- A wave that has message buffers sends them with its next call, and only such a wave sends. -/
structure Request.Disciplined (req : Request) (s : State cfg) (heap : HostHeap)
    (w : Fin cfg.waves) : Prop where
  sends : Filling s w → req.Sends (s.waves w)
  asks : ¬ Filling s w → req.service_id ∉ messageServices
  frees : req.service_id = HOSTEXEC_SID_FREE → req.Frees s heap

/-- The calls are disciplined, and an allocation finds a block that is not live. -/
def Disciplined (find : HostHeap → Word) (x : Hosted cfg HostHeap) : HostedAction cfg → Prop
  | .invoke w req => req.Disciplined x.protocol x.host w
  | .wave _ => True
  | .host => ∀ call, x.protocol.serviceCall = some call → allocates call.service_id ≠ none →
    x.host.blocks (find x.host) = none

/-- Reachable states of the protocol over the heap, under the tag assumption. -/
def ReachesDisciplined (find : HostHeap → Word) (answer : HostHeap → ServiceCall → Slot)
    (raw : Buffer) (x : Hosted cfg HostHeap) : Prop :=
  Reachable (hostedStep (heapObject find answer))
    (fun x a => NoTagWrap x.protocol ∧ Disciplined find x a) (Hosted.init cfg raw .init) x

def heldKind (service_id : BitVec 32) : BlockKind :=
  if service_id = HOSTEXEC_SID_FREE then .device else .message

/-- Every held block is live, no block has two holders and every live message has one. -/
structure Custody (s : State cfg) (heap : HostHeap) : Prop where
  fault : heap.fault = false
  live : ∀ w lane p, Holds s w lane p →
    heap.blocks p = some (heldKind (s.waves w).req.service_id)
  inj : ∀ w lane p w' lane', Holds s w lane p → Holds s w' lane' p → w = w' ∧ lane = lane'
  held : ∀ p, heap.blocks p = some .message → ∃ w lane, Holds s w lane p

variable {s s' : State cfg} {w v : Fin cfg.waves} {lane : Fin 64} {p : Word} {L : Lists}
  {heap heap' : HostHeap}

theorem Holds.frame (h : Holds s w lane p) (hreq : (s'.waves w).req = (s.waves w).req)
    (hcall : (s'.waves w).call = (s.waves w).call)
    (hpc : (s'.waves w).pc = .idle ↔ (s.waves w).pc = .idle)
    (hretval : (s.waves w).pc = .idle → (s'.waves w).retval = (s.waves w).retval)
    (hruns : (s.waves w).pc ≠ .idle →
      s'.runsOf (s.waves w).call = s.runsOf (s.waves w).call) : Holds s' w lane p := by
  cases h with
  | allocating hserv hidle e he hlane hp =>
    exact .allocating (hreq ▸ hserv) (mt hpc.mp hidle) e (by rw [hcall, hruns hidle]; exact he)
      hlane hp
  | filling hserv hidle hlane hp =>
    exact .filling (hreq ▸ hserv) (hpc.mpr hidle) (hreq ▸ hlane) (hretval hidle ▸ hp)
  | sending k hserv hidle hlane hnew hp =>
    exact .sending k (hreq ▸ hserv) (mt hpc.mp hidle) (hreq ▸ hlane)
      (by rw [hcall, hruns hidle]; exact hnew) (hreq ▸ hp)

/-- Who holds what and what for stays. -/
theorem Custody.of_holds (h : Custody s heap)
    (hback : ∀ w lane p, Holds s' w lane p → Holds s w lane p ∧
      heldKind (s'.waves w).req.service_id = heldKind (s.waves w).req.service_id)
    (hforth : ∀ w lane p, Holds s w lane p → Holds s' w lane p) : Custody s' heap where
  fault := h.fault
  live w lane p hp := by
    obtain ⟨hold, hkind⟩ := hback w lane p hp
    rw [hkind]
    exact h.live w lane p hold
  inj w lane p w' lane' hp hp' := h.inj w lane p w' lane' (hback _ _ _ hp).1 (hback _ _ _ hp').1
  held p hp := by
    obtain ⟨w, lane, hold⟩ := h.held p hp
    exact ⟨w, lane, hforth w lane p hold⟩

theorem not_sanitizes_of_malloc {req : Request} (h : req.service_id = HOSTEXEC_SID_HOST_MALLOC) :
    ¬ req.Sanitizes := by
  intro hsan
  rw [Request.Sanitizes, h] at hsan
  revert hsan
  decide

theorem not_sanitizes_of_releases {req : Request} {k : Fin 8}
    (h : releases req.service_id = some k) : ¬ req.Sanitizes := by
  intro hsan
  rw [Request.Sanitizes] at hsan
  rw [hsan] at h
  revert h
  decide +revert

/-- A call that returns keeps the buffers it got and none that it handed over. -/
theorem Holds.of_returned (hreq : (s'.waves v).req = (s.waves v).req) (hactive : (s.waves v).pc ≠ .idle)
    (hidle : (s'.waves v).pc = .idle) (hlog : s'.log = s.log)
    (hans : Answered cfg.device_id ⟨(s.waves v).call, (s.waves v).req, (s'.waves v).retval⟩
      (s'.runsOf (s.waves v).call) (s'.reportsOf (s.waves v).call)) :
    Holds s' v lane p ↔ Holds s v lane p := by
  have hruns : s'.runsOf (s.waves v).call = s.runsOf (s.waves v).call := by
    rw [State.runsOf, State.runsOf, hlog]
  rw [hruns] at hans
  constructor
  · intro h
    cases h with
    | filling hserv _ hlane hp =>
      rw [hreq] at hserv hlane
      obtain ⟨hlanes, hrun, -⟩ := hans.executed (not_sanitizes_of_malloc hserv)
      have hmem : lane ∈ (s.runsOf (s.waves v).call).map (·.lane) := by
        rw [hlanes]
        exact List.mem_filter.mpr ⟨List.mem_finRange _, hlane⟩
      obtain ⟨e, he, rfl⟩ := List.mem_map.mp hmem
      exact .allocating hserv hactive e he rfl ((congrFun (hrun e he).2 1).trans hp)
    | allocating _ hpc => exact absurd hidle hpc
    | sending _ _ hpc => exact absurd hidle hpc
  · intro h
    cases h with
    | allocating hserv _ e he hlane hp =>
      obtain ⟨-, hrun, -⟩ := hans.executed (not_sanitizes_of_malloc hserv)
      obtain ⟨hof, hresult⟩ := hrun e he
      refine .filling (hreq ▸ hserv) hidle (hreq ▸ hlane ▸ hof.active) ?_
      rw [← hlane, ← hp, hresult]
    | filling _ hpc => exact absurd hpc hactive
    | sending k hserv _ hlane hnew hp =>
      obtain ⟨hlanes, -, -⟩ := hans.executed (not_sanitizes_of_releases hserv)
      have hmem : lane ∈ (s.runsOf (s.waves v).call).map (·.lane) := by
        rw [hlanes]
        exact List.mem_filter.mpr ⟨List.mem_finRange _, hlane⟩
      obtain ⟨e, he, hlane'⟩ := List.mem_map.mp hmem
      exact absurd hlane' (hnew e he)

theorem WaveCase.holds_iff {exec : Service} (hw : WaveCase s w s') (hm' : Matched exec s') :
    Holds s' v lane p ↔ Holds s v lane p := by
  obtain ⟨hlog, -, hcall, hreq, -⟩ := hw.sameCalls
  have hruns : ∀ call, s'.runsOf call = s.runsOf call := fun call => by
    rw [State.runsOf, State.runsOf, hlog]
  rcases hw.returns v with ⟨hpc, hretval⟩ | ⟨hactive, hidle, hmem⟩
  · constructor
    · intro hp
      exact hp.frame (hreq v).symm (hcall v).symm hpc.symm
        (fun hidle => (hretval (hpc.mp hidle)).symm) fun _ => (hruns _).symm
    · intro hp
      exact hp.frame (hreq v) (hcall v) hpc hretval fun _ => hruns _
  · exact Holds.of_returned (hreq v) hactive hidle hlog (hm'.answered _ hmem)

theorem Custody.wave {exec : Service} (h : Custody s heap) (hm' : Matched exec s')
    (hw : WaveCase s w s') : Custody s' heap :=
  h.of_holds (fun v lane p hp => ⟨(hw.holds_iff hm').mp hp, by rw [hw.sameCalls.req]⟩)
    fun v lane p hp => (hw.holds_iff hm').mpr hp

theorem QuietHost.holds_iff (hs : QuietHost s s') : Holds s' v lane p ↔ Holds s v lane p := by
  have hwave : s'.waves v = s.waves v := by rw [hs.waves]
  have hruns : ∀ call, s'.runsOf call = s.runsOf call := fun call => by
    rw [State.runsOf, State.runsOf, hs.log]
  constructor
  · intro hp
    exact hp.frame (by rw [hwave]) (by rw [hwave]) (by rw [hwave]) (fun _ => by rw [hwave])
      fun _ => (hruns _).symm
  · intro hp
    exact hp.frame (by rw [hwave]) (by rw [hwave]) (by rw [hwave]) (fun _ => by rw [hwave])
      fun _ => hruns _

theorem Custody.quiet (h : Custody s heap) (hs : QuietHost s s') : Custody s' heap :=
  h.of_holds (fun v lane p hp => ⟨hs.holds_iff.mp hp, by rw [hs.waves]⟩)
    fun v lane p hp => hs.holds_iff.mpr hp

theorem releases_of_message {service_id : BitVec 32} (h : service_id ∈ messageServices) :
    releases service_id = some 1 := if_pos h

theorem releases_host_malloc : releases HOSTEXEC_SID_HOST_MALLOC = none := by decide

theorem releases_device_malloc : releases HOSTEXEC_SID_DEVICE_MALLOC = none := by decide

theorem releases_cases {service_id : BitVec 32} {k : Fin 8} (h : releases service_id = some k) :
    service_id ∈ messageServices ∨ service_id = HOSTEXEC_SID_FREE ∧ k = 0 := by
  unfold releases at h
  split_ifs at h with hmessage hfree
  · exact .inl hmessage
  · exact .inr ⟨hfree, (Option.some.inj h).symm⟩

theorem heldKind_of_message {service_id : BitVec 32} (h : service_id ∈ messageServices) :
    heldKind service_id = .message := by
  have hne : service_id ≠ HOSTEXEC_SID_FREE := by
    rintro rfl
    revert h
    decide
  exact if_neg hne

theorem Holds.of_idle (h : Holds s w lane p) (hpc : (s.waves w).pc = .idle) :
    Filling s w ∧ laneActive (s.waves w).req.activemask lane ∧ (s.waves w).retval lane 1 = p := by
  cases h with
  | filling hserv _ hlane hp => exact ⟨⟨hpc, hserv⟩, hlane, hp⟩
  | allocating _ hidle => exact absurd hpc hidle
  | sending _ _ hidle => exact absurd hpc hidle

section Invoke

variable {req : Request}

/-- The state after wave `w` has called `hostexec_invoke`. -/
abbrev afterInvoke (s : State cfg) (w : Fin cfg.waves) (req : Request) : State cfg :=
  { s with calls := s.calls + 1 }.setWave w
    { s.waves w with pc := .pop .load, req := req, call := s.calls }

theorem holds_afterInvoke_of_ne (hv : v ≠ w) :
    Holds (afterInvoke s w req) v lane p ↔ Holds s v lane p := by
  have hwave : (afterInvoke s w req).waves v = s.waves v := Function.update_of_ne hv _ _
  constructor
  · intro h
    exact h.frame (by rw [hwave]) (by rw [hwave]) (by rw [hwave]) (fun _ => by rw [hwave])
      fun _ => rfl
  · intro h
    exact h.frame (by rw [hwave]) (by rw [hwave]) (by rw [hwave]) (fun _ => by rw [hwave])
      fun _ => rfl

theorem Matched.runsOf_calls {exec : Service} (hm : Matched exec s) : s.runsOf s.calls = [] := by
  rw [State.runsOf, List.filter_eq_nil_iff]
  intro e he
  have := (hm.log e he).1.lt hm.numbered
  simp only [decide_eq_true_eq]
  omega

/-- A call that is made hands its blocks over; it has got none yet. -/
theorem holds_afterInvoke_self (hruns : s.runsOf s.calls = []) :
    Holds (afterInvoke s w req) w lane p ↔
      ∃ k, releases req.service_id = some k ∧ laneActive req.activemask lane ∧
        req.args lane k = p := by
  have hwave : (afterInvoke s w req).waves w =
      { s.waves w with pc := .pop .load, req := req, call := s.calls } := Function.update_self ..
  have hnone : (afterInvoke s w req).runsOf ((afterInvoke s w req).waves w).call = [] := by
    rw [hwave]
    exact hruns
  constructor
  · intro h
    cases h with
    | allocating _ _ e he =>
      rw [hnone] at he
      simp at he
    | filling _ hpc =>
      rw [hwave] at hpc
      simp at hpc
    | sending k hserv _ hlane _ hp =>
      rw [hwave] at hserv hlane hp
      exact ⟨k, hserv, hlane, hp⟩
  · rintro ⟨k, hserv, hlane, hp⟩
    exact .sending k (by rw [hwave]; exact hserv) (by rw [hwave]; simp) (by rw [hwave]; exact hlane)
      (by rw [hnone]; simp) (by rw [hwave]; exact hp)

theorem Custody.invoke {exec : Service} (h : Custody s heap) (hm : Matched exec s)
    (hok : req.Disciplined s heap w) (hpc : (s.waves w).pc = .idle) :
    Custody (afterInvoke s w req) heap := by
  obtain ⟨hsends, hnone, hfrees⟩ := hok
  have hself : ∀ lane p, Holds (afterInvoke s w req) w lane p ↔
      ∃ k, releases req.service_id = some k ∧ laneActive req.activemask lane ∧
        req.args lane k = p := fun _ _ => holds_afterInvoke_self hm.runsOf_calls
  have hwave : ((afterInvoke s w req).waves w).req = req := by
    simp
  have hreq : ∀ v, v ≠ w → ((afterInvoke s w req).waves v).req = (s.waves v).req := by
    intro v hv
    simp [Function.update_of_ne hv]
  by_cases hfill : Filling s w
  · -- the buffers that the wave has filled are handed over
    have hs := hsends hfill
    have hrel := releases_of_message hs.service
    apply h.of_holds
    · intro v lane p hp
      by_cases hv : v = w
      · subst hv
        obtain ⟨k, hk, hlane, rfl⟩ := (hself lane p).mp hp
        obtain rfl : 1 = k := Option.some.inj (hrel.symm.trans hk)
        refine ⟨.filling hfill.2 hpc (hs.lanes ▸ hlane) (hs.buffers lane hlane).symm, ?_⟩
        rw [hwave, heldKind_of_message hs.service, hfill.2]
        rfl
      · exact ⟨(holds_afterInvoke_of_ne hv).mp hp, by rw [hreq v hv]⟩
    · intro v lane p hp
      by_cases hv : v = w
      · subst hv
        obtain ⟨-, hlane, rfl⟩ := hp.of_idle hpc
        rw [← hs.lanes] at hlane
        exact (hself lane _).mpr ⟨1, hrel, hlane, hs.buffers lane hlane⟩
      · exact (holds_afterInvoke_of_ne hv).mpr hp
  · -- the wave holds nothing before, and after it what it frees
    have hbefore : ∀ lane p, ¬ Holds s w lane p := fun lane p hp => hfill (hp.of_idle hpc).1
    have hafter : ∀ lane p, Holds (afterInvoke s w req) w lane p → req.service_id = HOSTEXEC_SID_FREE ∧
        laneActive req.activemask lane ∧ req.args lane 0 = p := by
      intro lane p hp
      obtain ⟨k, hk, hlane, hargs⟩ := (hself lane p).mp hp
      rcases releases_cases hk with hmessage | ⟨hfree, rfl⟩
      · exact absurd hmessage (hnone hfill)
      · exact ⟨hfree, hlane, hargs⟩
    have hother : ∀ v lane p, v ≠ w → (Holds (afterInvoke s w req) v lane p ↔ Holds s v lane p) := by
      intro v lane p hv
      exact holds_afterInvoke_of_ne hv
    refine ⟨h.fault, fun v lane p hp => ?_, fun v lane p v' lane' hp hp' => ?_,
      fun p hp => ?_⟩
    · by_cases hv : v = w
      · subst hv
        obtain ⟨hfree, hlane, rfl⟩ := hafter lane p hp
        rw [hwave, hfree, (hfrees hfree).device lane hlane]
        rfl
      · rw [hreq v hv]
        exact h.live v lane p ((hother v lane p hv).mp hp)
    · by_cases hv : v = w
      · subst hv
        obtain ⟨hfree, hlane, rfl⟩ := hafter lane p hp
        by_cases hv' : v' = v
        · subst hv'
          obtain ⟨-, hlane', hargs⟩ := hafter lane' _ hp'
          exact ⟨rfl, (hfrees hfree).apart lane lane' hlane hlane' hargs.symm⟩
        · exact absurd ((hother v' lane' _ hv').mp hp') ((hfrees hfree).free lane hlane v' lane')
      · by_cases hv' : v' = w
        · subst hv'
          obtain ⟨hfree, hlane, rfl⟩ := hafter lane' p hp'
          exact absurd ((hother v lane _ hv).mp hp) ((hfrees hfree).free lane' hlane v lane)
        · exact h.inj v lane p v' lane' ((hother v lane p hv).mp hp) ((hother v' lane' p hv').mp hp')
    · obtain ⟨v, lane, hold⟩ := h.held p hp
      have hv : v ≠ w := by
        rintro rfl
        exact hbefore lane p hold
      exact ⟨v, lane, (hother v lane p hv).mpr hold⟩

end Invoke

/-- `execute_service` runs for a lane that has not been served of a call in progress, with the
service and the arguments of that call. -/
structure ServesLane (s s' : State cfg) (call : ServiceCall) (out : Slot) (w : Fin cfg.waves)
    (lane : Fin 64) : Prop where
  active : (s.waves w).pc ≠ .idle
  mask : laneActive (s.waves w).req.activemask lane
  service : call.service_id = (s.waves w).req.service_id
  args : call.args = (s.waves w).req.args lane
  new : ∀ e ∈ s.runsOf (s.waves w).call, e.lane ≠ lane
  waves : s'.waves = s.waves
  run : ∃ e, e.call = (s.waves w).call ∧ e.lane = lane ∧ e.serviceCall = call ∧ e.result = out ∧
    s'.log = s.log ++ [e]

theorem HostCase.serves {exec : Service} {out : Slot} {call : ServiceCall} (h : HostCase s out s')
    (hcall : s.serviceCall = some call) (hm : Matched exec s) (hinv : Inv s L)
    (hm' : Matched exec s') : ∃ w lane, ServesLane s s' call out w lane := by
  obtain ⟨lane, hpc, hwaves, -, -, -, hlog⟩ := h.executes hcall
  obtain ⟨w, hposted, -, -, hsan, hfilled⟩ := hm.at_lane hinv hpc
  have hrun : (s'.runsOf (s.waves w).call) = s.runsOf (s.waves w).call ++
      [⟨s.callOf (s.buf.index s.consumer.iter), lane, call.service_id, call.device_id, call.args,
        out⟩] := by
    rw [State.runsOf, State.runsOf, hlog, List.filter_append, hinv.index_eq]
    simp [hfilled.call]
  have hfilled' := (hm'.wave w).filled (by rw [hwaves]; exact Pc.filled_of_posted hposted)
  rw [hwaves, hrun] at hfilled'
  obtain ⟨hof, -⟩ := hfilled'.run _ (List.mem_append_right _ (List.mem_singleton_self _))
  refine ⟨w, lane, ?_, hof.active, hof.service_id, hof.args, fun e he => ?_, hwaves, _, ?_, rfl, rfl,
    rfl, hlog⟩
  · intro hidle
    simp [hidle, Pc.posted] at hposted
  · have hlanes := hfilled.lanes
    rw [if_neg hsan] at hlanes
    have hmem : e.lane ∈ lanesBelow (s.waves w).req.activemask lane := by
      rw [← hlanes]
      exact List.mem_map_of_mem he
    rintro rfl
    exact absurd (mem_lanesBelow.mp hmem).1 (lt_irrefl _)
  · rw [hinv.index_eq, hfilled.call]

section Served

variable {exec : Service} {call : ServiceCall} {out : Slot} (h : ServesLane s s' call out w lane)
  (hm : Matched exec s)
include h hm

theorem ServesLane.runs_of_ne (hv : v ≠ w) (hpc : (s.waves v).pc ≠ .idle) :
    s'.runsOf (s.waves v).call = s.runsOf (s.waves v).call := by
  obtain ⟨e, hcall, -, -, -, hlog⟩ := h.run
  have hne : e.call ≠ (s.waves v).call := by
    intro he
    exact hv (hm.numbered.inj v w hpc h.active (he.symm.trans hcall))
  rw [State.runsOf, State.runsOf, hlog, List.filter_append]
  simp [hne]

theorem ServesLane.holds_of_ne (hv : v ≠ w) {l : Fin 64} :
    Holds s' v l p ↔ Holds s v l p := by
  have hwave : s'.waves v = s.waves v := by rw [h.waves]
  have hruns := fun hpc => h.runs_of_ne hm hv hpc
  constructor
  · intro hp
    refine hp.frame (by rw [hwave]) (by rw [hwave]) (by rw [hwave]) (fun _ => by rw [hwave])
      fun hpc => ?_
    rw [hwave] at hpc ⊢
    exact (hruns hpc).symm
  · intro hp
    exact hp.frame (by rw [hwave]) (by rw [hwave]) (by rw [hwave]) (fun _ => by rw [hwave]) hruns

omit hm in
theorem ServesLane.runs_self : ∃ e, e.lane = lane ∧ e.result = out ∧
    s'.runsOf (s'.waves w).call = s.runsOf (s.waves w).call ++ [e] := by
  obtain ⟨e, hcall, hlane, -, hresult, hlog⟩ := h.run
  refine ⟨e, hlane, hresult, ?_⟩
  rw [h.waves, State.runsOf, State.runsOf, hlog, List.filter_append]
  simp [hcall]

omit hm in
/-- A served lane that asked for a buffer has one, and the others keep theirs. -/
theorem ServesLane.holds_malloc (hserv : call.service_id = HOSTEXEC_SID_HOST_MALLOC) {l : Fin 64} :
    Holds s' w l p ↔ Holds s w l p ∨ l = lane ∧ out 1 = p := by
  obtain ⟨e, hlane, hresult, hruns⟩ := h.runs_self
  have hwave : s'.waves w = s.waves w := by rw [h.waves]
  rw [h.service] at hserv
  have hrel : releases (s.waves w).req.service_id = none := by
    rw [hserv, releases_host_malloc]
  constructor
  · intro hp
    cases hp with
    | allocating _ _ e' he' hlane' hp =>
      rw [hruns, List.mem_append, List.mem_singleton] at he'
      rcases he' with he' | rfl
      · exact .inl (.allocating hserv h.active e' he' hlane' hp)
      · exact .inr ⟨by rw [← hlane', hlane], by rw [← hp, hresult]⟩
    | filling _ hpc =>
      rw [hwave] at hpc
      exact absurd hpc h.active
    | sending k hk =>
      rw [hwave, hrel] at hk
      simp at hk
  · rintro (hp | ⟨rfl, hp⟩)
    · cases hp with
      | allocating _ _ e' he' hlane' hp =>
        exact .allocating (by rw [hwave]; exact hserv) (by rw [hwave]; exact h.active) e'
          (by rw [hruns]; exact List.mem_append_left _ he') hlane' hp
      | filling _ hpc => exact absurd hpc h.active
      | sending k hk =>
        rw [hrel] at hk
        simp at hk
    · exact .allocating (by rw [hwave]; exact hserv) (by rw [hwave]; exact h.active) e
        (by rw [hruns]; simp) hlane (by rw [hresult]; exact hp)

omit hm in
/-- A served lane that handed a block over holds it no more. -/
theorem ServesLane.holds_release {k : Fin 8} (hk : releases call.service_id = some k) {l : Fin 64} :
    Holds s' w l p ↔ Holds s w l p ∧ l ≠ lane := by
  obtain ⟨e, hlane, hresult, hruns⟩ := h.runs_self
  have hwave : s'.waves w = s.waves w := by rw [h.waves]
  rw [h.service] at hk
  have hmalloc : (s.waves w).req.service_id ≠ HOSTEXEC_SID_HOST_MALLOC := by
    intro hserv
    rw [hserv, releases_host_malloc] at hk
    simp at hk
  constructor
  · intro hp
    cases hp with
    | sending k hk hpc hl hnew hp =>
      rw [hwave] at hk hpc hl hp
      rw [hruns] at hnew
      refine ⟨.sending k hk hpc hl (fun e' he' => hnew e' (List.mem_append_left _ he')) hp, ?_⟩
      rw [← hlane]
      exact (hnew e (by simp)).symm
    | allocating hserv => exact absurd (hwave ▸ hserv) hmalloc
    | filling hserv => exact absurd (hwave ▸ hserv) hmalloc
  · rintro ⟨hp, hl⟩
    cases hp with
    | sending k hk hpc hactive hnew hp =>
      rw [← hwave] at hk hpc hactive hp
      refine .sending k hk hpc hactive (fun e' he' => ?_) hp
      rw [hruns, List.mem_append, List.mem_singleton] at he'
      rcases he' with he' | rfl
      · exact hnew e' he'
      · rw [hlane]
        exact hl.symm
    | allocating hserv => exact absurd hserv hmalloc
    | filling hserv => exact absurd hserv hmalloc

theorem ServesLane.holds_before {k : Fin 8} (hk : releases call.service_id = some k) {l : Fin 64}
    (hp : Holds s' v l p) : Holds s v l p := by
  by_cases hv : v = w
  · subst hv
    exact ((h.holds_release hk).mp hp).1
  · exact (h.holds_of_ne hm hv).mp hp

/-- The wave asks for device memory: it holds nothing before and after. -/
theorem ServesLane.holds_device (hserv : call.service_id = HOSTEXEC_SID_DEVICE_MALLOC) {l : Fin 64} :
    Holds s' v l p ↔ Holds s v l p := by
  by_cases hv : v = w
  · subst hv
    have hwave : s'.waves v = s.waves v := by rw [h.waves]
    have hnone : ∀ t : State cfg, t.waves v = s.waves v → ¬ Holds t v l p := by
      intro t ht hp
      rw [h.service] at hserv
      cases hp with
      | allocating hmalloc | filling hmalloc =>
        rw [ht, hserv] at hmalloc
        revert hmalloc
        decide
      | sending k hk =>
        rw [ht, hserv, releases_device_malloc] at hk
        simp at hk
    exact iff_of_false (hnone s' hwave) (hnone s rfl)
  · exact h.holds_of_ne hm hv

end Served

theorem allocates_eq_some {service_id : BitVec 32} {kind : BlockKind}
    (h : allocates service_id = some kind) :
    service_id = HOSTEXEC_SID_HOST_MALLOC ∧ kind = .message ∨
      service_id = HOSTEXEC_SID_DEVICE_MALLOC ∧ kind = .device := by
  unfold allocates at h
  split_ifs at h with hhost hdevice
  · exact .inl ⟨hhost, (Option.some.inj h).symm⟩
  · exact .inr ⟨hdevice, (Option.some.inj h).symm⟩

theorem executable_allocates_or_releases {service_id : BitVec 32}
    (h : service_id ∈ executableServices) :
    (allocates service_id).isSome ∨ (releases service_id).isSome := by
  have hall : executableServices.all (fun id => (allocates id).isSome || (releases id).isSome) := by
    decide +kernel
  simpa using List.all_eq_true.mp hall service_id h

section Serve

variable {exec : Service} {call : ServiceCall} {out : Slot}

theorem Custody.alloc (h : Custody s heap) (hm : Matched exec s) {kind : BlockKind}
    (hserves : ServesLane s s' call out w lane)
    (hkind : allocates call.service_id = some kind) (hfree : heap.blocks p = none)
    (hhost : heap' = heap.alloc p kind) (hout : out 1 = p) : Custody s' heap' := by
  have hblocks : ∀ q, q ≠ p → heap'.blocks q = heap.blocks q := by
    intro q hq
    rw [hhost]
    exact Function.update_of_ne hq _ _
  have hnew : heap'.blocks p = some kind := by
    rw [hhost]
    exact Function.update_self ..
  have hreq : ∀ v, s'.waves v = s.waves v := fun v => by rw [hserves.waves]
  have hne : ∀ v l q, Holds s v l q → q ≠ p := by
    rintro v l q hq rfl
    rw [h.live v l q hq] at hfree
    simp at hfree
  have hfault : heap'.fault = false := by
    rw [hhost]
    exact h.fault
  rcases allocates_eq_some hkind with ⟨hserv, rfl⟩ | ⟨hserv, rfl⟩
  · have hkindw : heldKind (s.waves w).req.service_id = .message := by
      rw [← hserves.service, hserv]
      rfl
    have hholds : ∀ v l q, Holds s' v l q ↔
        Holds s v l q ∨ v = w ∧ l = lane ∧ q = p := by
      intro v l q
      by_cases hv : v = w
      · subst hv
        rw [hserves.holds_malloc hserv, hout]
        simp [eq_comm]
      · rw [hserves.holds_of_ne hm hv]
        simp [hv]
    refine ⟨hfault, fun v l q hq => ?_, fun v l q v' l' hq hq' => ?_, fun q hq => ?_⟩
    · rw [hreq]
      rcases (hholds v l q).mp hq with hq | ⟨rfl, rfl, rfl⟩
      · rw [hblocks q (hne v l q hq)]
        exact h.live v l q hq
      · rw [hnew, hkindw]
    · rcases (hholds v l q).mp hq with hq | ⟨rfl, rfl, rfl⟩ <;>
        rcases (hholds v' l' q).mp hq' with hq' | ⟨rfl, rfl, hp⟩
      · exact h.inj v l q v' l' hq hq'
      · exact absurd hp (hne v l q hq)
      · exact absurd rfl (hne v' l' _ hq')
      · exact ⟨rfl, rfl⟩
    · by_cases hqp : q = p
      · exact ⟨w, lane, (hholds w lane q).mpr (.inr ⟨rfl, rfl, hqp⟩)⟩
      · rw [hblocks q hqp] at hq
        obtain ⟨v, l, hold⟩ := h.held q hq
        exact ⟨v, l, (hholds v l q).mpr (.inl hold)⟩
  · -- a block of the device side heap is held by no wave
    have hholds : ∀ v l q, Holds s' v l q ↔ Holds s v l q :=
      fun v l q => hserves.holds_device hm hserv
    refine ⟨hfault, fun v l q hq => ?_, fun v l q v' l' hq hq' => ?_, fun q hq => ?_⟩
    · have hold := (hholds v l q).mp hq
      rw [hreq, hblocks q (hne v l q hold)]
      exact h.live v l q hold
    · exact h.inj v l q v' l' ((hholds v l q).mp hq) ((hholds v' l' q).mp hq')
    · have hqp : q ≠ p := by
        rintro rfl
        rw [hnew] at hq
        simp at hq
      rw [hblocks q hqp] at hq
      obtain ⟨v, l, hold⟩ := h.held q hq
      exact ⟨v, l, (hholds v l q).mpr hold⟩

theorem Custody.release (h : Custody s heap) (hm : Matched exec s) {k : Fin 8}
    (hserves : ServesLane s s' call out w lane)
    (hk : releases call.service_id = some k)
    (hhost : heap' = heap.release (call.args k)) : Custody s' heap' := by
  have hreq : ∀ v, s'.waves v = s.waves v := fun v => by rw [hserves.waves]
  have hkw : releases (s.waves w).req.service_id = some k := hserves.service ▸ hk
  -- the block that is freed is held by the lane that is served
  have hself : Holds s w lane (call.args k) :=
    .sending k hkw hserves.active hserves.mask hserves.new (by rw [hserves.args])
  have hlive := h.live w lane _ hself
  have hheap : heap' =
      { heap with blocks := Function.update heap.blocks (call.args k) none } := by
    rw [hhost, HostHeap.release, if_neg (by simp [hlive])]
  have hblocks : ∀ q, q ≠ call.args k → heap'.blocks q = heap.blocks q := by
    intro q hq
    rw [hheap]
    exact Function.update_of_ne hq _ _
  have hholds : ∀ v l q, Holds s' v l q ↔
      Holds s v l q ∧ ¬ (v = w ∧ l = lane) := by
    intro v l q
    by_cases hv : v = w
    · subst hv
      rw [hserves.holds_release hk]
      simp
    · rw [hserves.holds_of_ne hm hv]
      simp [hv]
  have hne : ∀ v l q, Holds s' v l q → q ≠ call.args k := by
    rintro v l q hq rfl
    obtain ⟨hold, hother⟩ := (hholds v l _).mp hq
    exact hother (h.inj v l _ w lane hold hself)
  refine ⟨by rw [hheap, h.fault], fun v l q hq => ?_, fun v l q v' l' hq hq' => ?_, fun q hq => ?_⟩
  · rw [hreq, hblocks q (hne v l q hq)]
    exact h.live v l q ((hholds v l q).mp hq).1
  · exact h.inj v l q v' l' ((hholds v l q).mp hq).1 ((hholds v' l' q).mp hq').1
  · have hqk : q ≠ call.args k := by
      rintro rfl
      rw [hheap] at hq
      simp at hq
    rw [hblocks q hqk] at hq
    obtain ⟨v, l, hold⟩ := h.held q hq
    refine ⟨v, l, (hholds v l q).mpr ⟨hold, ?_⟩⟩
    rintro ⟨rfl, rfl⟩
    -- a lane hands over one block
    cases hold with
    | sending k' hk' _ _ _ hp =>
      obtain rfl : k = k' := Option.some.inj (hkw.symm.trans hk')
      exact hqk (by rw [← hp, hserves.args])
    | allocating hserv | filling hserv =>
      rw [hserv, releases_host_malloc] at hkw
      simp at hkw

/-- What a run of `execute_service` does to the heap. -/
structure HeapStep (heap : HostHeap) (call : ServiceCall) (out : Slot) (heap' : HostHeap) :
    Prop where
  alloc : ∀ kind, allocates call.service_id = some kind →
    heap.blocks (out 1) = none ∧ heap' = heap.alloc (out 1) kind
  release : ∀ k, allocates call.service_id = none → releases call.service_id = some k →
    heap' = heap.release (call.args k)

theorem Custody.execute (h : Custody s heap) (hm : Matched exec s)
    (hcall : s.serviceCall = some call) (hserves : ServesLane s s' call out w lane)
    (hstep : HeapStep heap call out heap') : Custody s' heap' := by
  obtain ⟨l, -, -, hexec, hservice⟩ := serviceCall_eq_some hcall
  replace hexec : call.service_id ∈ executableServices := by
    rw [hservice]
    exact hexec
  cases hkind : allocates call.service_id with
  | some kind =>
    obtain ⟨hfree, hheap⟩ := hstep.alloc kind hkind
    exact h.alloc hm hserves hkind hfree hheap rfl
  | none =>
    cases hk : releases call.service_id with
    | some k => exact h.release hm hserves hk (hstep.release k hkind hk)
    | none =>
      rcases executable_allocates_or_releases hexec with hsome | hsome
      · simp [hkind] at hsome
      · simp [hk] at hsome

end Serve

theorem Custody.init (cfg : Config) (raw : Buffer) : Custody (State.init cfg raw) .init := by
  have hnone : ∀ w lane p, ¬ Holds (State.init cfg raw) w lane p := by
    intro w lane p hp
    obtain ⟨⟨-, hserv⟩, -⟩ := hp.of_idle rfl
    revert hserv
    simp only [State.init]
    decide
  exact ⟨rfl, fun w lane p hp => absurd hp (hnone w lane p),
    fun w lane p _ _ hp => absurd hp (hnone w lane p), fun p hp => by simp [HostHeap.init] at hp⟩

section Run

variable {find : HostHeap → Word} {answer : HostHeap → ServiceCall → Slot} {x : Hosted cfg HostHeap}

theorem heapObject_step {heap : HostHeap} {call : ServiceCall}
    (hfind : allocates call.service_id ≠ none → heap.blocks (find heap) = none) :
    HeapStep heap call (heapObject find answer heap call).2 (heapObject find answer heap call).1 := by
  constructor
  · intro kind hkind
    simp only [heapObject, hkind]
    exact ⟨by simpa using hfind (by simp [hkind]), by simp⟩
  · intro k hkind hk
    simp only [heapObject, hkind, hk]

theorem ReachesDisciplined.hosted (h : ReachesDisciplined find answer raw x) :
    HostedReaches (heapObject find answer) raw .init x :=
  h.weaken fun _ _ => And.left

theorem ReachesDisciplined.custody (h : ReachesDisciplined find answer raw x) :
    Custody x.protocol x.host := by
  apply h.invariant₂ (P := fun x => ReachesServing anyService raw x.protocol)
    (Q := fun x => Custody x.protocol x.host)
    (fun _ hr => (ReachesDisciplined.hosted hr).protocol) (Custody.init cfg raw)
  intro x a x' hreach hcust hok hs
  have hm := hreach.matched
  obtain ⟨L, hinv⟩ := hreach.reaches.inv
  have hcase := hosted_cases hs
  obtain ⟨b, hb⟩ := hcase.protocol
  have hreach' : ReachesServing anyService raw x'.protocol :=
    hreach.tail ⟨hok.1, serves_anyService _ b⟩ hb
  have hm' := hreach'.matched
  cases hcase with
  | invoke w req hp =>
    cases step_cases hp with
    | invoke _ _ hpc => exact hcust.invoke hm hok.2 hpc
  | wave w hp => exact hcust.wave hm' (waveStep_cases hp)
  | execute hcall hp =>
    obtain ⟨w, lane, hserves⟩ := (hostStep_cases hp).serves hcall hm hinv hm'
    exact hcust.execute hm hcall hserves (heapObject_step (hok.2 _ hcall))
  | quiet hcall hp => exact hcust.quiet ((hostStep_cases hp).quiet hcall)

end Run

/-- In every run in which waves allocate message buffers, fill them and send them, whatever
calls interleave: no service reads or frees a block that is not live, a held block is live and
has one holder, and every live message buffer is held. So when every wave is between two
messages, no message buffer is left. -/
theorem message_buffers (cfg : Config) (find : HostHeap → Word)
    (answer : HostHeap → ServiceCall → Slot) (raw : Buffer) (x : Hosted cfg HostHeap)
    (h : ReachesDisciplined find answer raw x) :
    x.host.fault = false ∧
    (∀ w lane p, Holds x.protocol w lane p → x.host.blocks p ≠ none ∧
      ∀ w' lane', Holds x.protocol w' lane' p → w' = w ∧ lane' = lane) ∧
    (∀ p, x.host.blocks p = some .message → ∃ w lane, Holds x.protocol w lane p) ∧
    ((∀ w, (x.protocol.waves w).pc = .idle ∧ ¬ Filling x.protocol w) →
      ∀ p, x.host.blocks p ≠ some .message) := by
  have hcust := h.custody
  refine ⟨hcust.fault, fun w lane p hp => ⟨?_, fun w' lane' hp' => ?_⟩, hcust.held,
    fun hidle p hp => ?_⟩
  · rw [hcust.live w lane p hp]
    simp
  · exact hcust.inj w' lane' p w lane hp' hp
  · obtain ⟨w, lane, hold⟩ := hcust.held p hp
    exact (hidle w).2 (hold.of_idle (hidle w).1).1

def askBuffer : Request := ⟨HOSTEXEC_SID_HOST_MALLOC, 1, fun _ _ => 24, firstLane_active⟩

/-- Lane 0 sends the buffer at 4096 to `printf`. -/
def sendBuffer : Request := ⟨HOSTEXEC_SID_PRINTF, 1, fun _ _ => 4096, firstLane_active⟩

abbrev at4096 : HostHeap → Word := fun _ => 4096

abbrev noAnswer : HostHeap → ServiceCall → Slot := fun _ _ _ => 0

def oneCall (req : Request) : List (HostedAction oneWave) :=
  .invoke firstWave req :: List.replicate 15 (.wave firstWave) ++ List.replicate 70 .host ++
    List.replicate 13 (.wave firstWave)

/-- `Disciplined`, for runs without calls of `HOSTEXEC_SID_FREE`. -/
def checkDisciplined (x : Hosted oneWave HostHeap) (a : HostedAction oneWave) : Bool :=
  decide (NoTagWrap x.protocol) && match a with
    | .invoke w req => req.service_id != HOSTEXEC_SID_FREE &&
      if (x.protocol.waves w).pc = .idle ∧
          (x.protocol.waves w).req.service_id = HOSTEXEC_SID_HOST_MALLOC then
        decide (req.service_id ∈ messageServices ∧
          req.activemask = (x.protocol.waves w).req.activemask ∧
          ∀ lane : Fin 64, laneActive req.activemask lane →
            req.args lane 1 = (x.protocol.waves w).retval lane 1)
      else decide (req.service_id ∉ messageServices)
    | .wave _ => true
    | .host => x.protocol.serviceCall.all fun call =>
      allocates call.service_id = none || x.host.blocks 4096 = none

theorem oneMessage : (runChecked (hostedStep (heapObject at4096 noAnswer)) checkDisciplined
    (Hosted.init oneWave zeroed .init) (oneCall askBuffer ++ oneCall sendBuffer)).map (fun x =>
      x.protocol.completed.length) = some 2 := by
  decide +kernel

theorem of_checkDisciplined (x : Hosted oneWave HostHeap) (a : HostedAction oneWave)
    (h : checkDisciplined x a = true) : NoTagWrap x.protocol ∧ Disciplined at4096 x a := by
  obtain ⟨hwrap, h⟩ := Bool.and_eq_true_iff.mp h
  refine ⟨of_decide_eq_true hwrap, ?_⟩
  cases a with
  | invoke w req =>
    obtain ⟨hfree, h⟩ := Bool.and_eq_true_iff.mp h
    have hfree : req.service_id ≠ HOSTEXEC_SID_FREE := by simpa using hfree
    by_cases hfill : (x.protocol.waves w).pc = .idle ∧
        (x.protocol.waves w).req.service_id = HOSTEXEC_SID_HOST_MALLOC
    · rw [if_pos hfill] at h
      obtain ⟨hservice, hlanes, hbuffers⟩ := of_decide_eq_true h
      exact ⟨fun _ => ⟨hservice, hlanes, hbuffers⟩, fun hnot => absurd hfill hnot,
        fun hc => absurd hc hfree⟩
    · rw [if_neg hfill] at h
      exact ⟨fun hc => absurd hc hfill, fun _ => of_decide_eq_true h, fun hc => absurd hc hfree⟩
  | wave w => trivial
  | host =>
    intro call hcall halloc
    simp only [hcall, Option.all_some] at h
    simpa [halloc] using h

theorem message_buffers_oneMessage : ∃ x : Hosted oneWave HostHeap,
    ReachesDisciplined at4096 noAnswer zeroed x ∧ x.protocol.completed.length = 2 ∧
    x.host.fault = false ∧ ∀ p, x.host.blocks p = some .message →
      ∃ w lane, Holds x.protocol w lane p := by
  obtain ⟨x, hx, hlength⟩ := Option.map_eq_some_iff.mp oneMessage
  have hreach : ReachesDisciplined at4096 noAnswer zeroed x :=
    Reachable.of_runChecked of_checkDisciplined _ _ hx
  obtain ⟨hfault, -, hheld, -⟩ := message_buffers oneWave at4096 noAnswer zeroed x hreach
  exact ⟨x, hreach, hlength, hfault, hheld⟩

end Aomp.Hostexec
