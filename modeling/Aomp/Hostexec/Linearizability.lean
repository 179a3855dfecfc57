import Aomp.Foundations.Linearizability
import Aomp.Hostexec.Matching

/-!
# Calls of hostexec are linearizable

The services run on the host and may share state there: a heap, the units of a Fortran
program, anything a user function reads and writes. Whatever that state is, the calls of
all waves take effect one after another, each with all its active lanes in a row and none
of another call between them, at a point between its invocation and its return.
-/
namespace Aomp.Hostexec

open Foundations

variable {cfg : Config} {H : Type*} {s s' : State cfg} {raw : Buffer}

/-- What `execute_service` is called with for one lane. -/
structure ServiceCall where
  service_id : BitVec 32
  device_id : BitVec 32
  args : Slot

/-- The host functions behind `execute_service`, over the state they share. -/
abbrev HostObject (H : Type*) := SequentialObject H ServiceCall Slot

/-- What a call hands to `execute_service`, lane after lane. -/
def Request.serviceCalls (dev : BitVec 32) (req : Request) : List ServiceCall :=
  (activeLanes req.activemask).map fun l => ⟨req.service_id, dev, req.args l⟩

/-- A call of a whole wave as one operation, answered with the results of its active lanes. -/
def waveObject (obj : HostObject H) (dev : BitVec 32) : SequentialObject H Request (List Slot) :=
  obj.batch.comap (Request.serviceCalls dev)

def Execution.serviceCall (e : Execution) : ServiceCall := ⟨e.service_id, e.device_id, e.args⟩

/-- The results that a completed call returned to its active lanes. -/
def Completed.results (c : Completed) : List Slot := (activeLanes c.req.activemask).map c.retval

/-- The call of `execute_service` that the next step of the consumer makes. -/
def State.serviceCall (s : State cfg) : Option ServiceCall :=
  match s.consumer.pc with
  | .lane wi =>
    if h : wi < 64 then
      if laneActive s.consumer.activemask wi ∧ s.consumer.service_id ∈ executableServices then
        some ⟨s.consumer.service_id, s.buf.device_id, s.buf.getPayload s.consumer.iter ⟨wi, h⟩⟩
      else none
    else none
  | _ => none

/-- The calls that `s'` has completed and `s` has not. -/
def State.completedSince (s' s : State cfg) : List Completed :=
  s'.completed.take (s'.completed.length - s.completed.length)

/-- The protocol and the state of the host. `history` records the invocations and returns
of the calls that `execute_service` serves; no step reads it. -/
structure Hosted (cfg : Config) (H : Type*) where
  protocol : State cfg
  host : H
  history : List (Event ℕ Request (List Slot))

def Hosted.init (cfg : Config) (raw : Buffer) (h₀ : H) : Hosted cfg H := ⟨State.init cfg raw, h₀, []⟩

inductive HostedAction (cfg : Config)
  | invoke (w : Fin cfg.waves) (req : Request)
  | wave (w : Fin cfg.waves)
  | host

def invocation (call : ℕ) (req : Request) : List (Event ℕ Request (List Slot)) :=
  if req.Sanitizes then [] else [.invoke call req]

def Completed.response (c : Completed) : List (Event ℕ Request (List Slot)) :=
  if c.req.Sanitizes then [] else [.respond c.call c.results]

/-- A step of the protocol; what a service leaves in its slot is the answer of the host. -/
def hostedStep (obj : HostObject H) (x : Hosted cfg H) : HostedAction cfg → Option (Hosted cfg H)
  | .invoke w req => (step x.protocol (.invoke w req)).map fun s =>
      { x with protocol := s, history := x.history ++ invocation x.protocol.calls req }
  | .wave w => (waveStep x.protocol w).map fun s =>
      { x with
        protocol := s
        history := x.history ++ (s.completedSince x.protocol).flatMap Completed.response }
  | .host =>
    match x.protocol.serviceCall with
    | some call =>
      let (host, out) := obj x.host call
      (hostStep x.protocol out).map fun s => { x with protocol := s, host := host }
    | none => (hostStep x.protocol fun _ => 0).map fun s => { x with protocol := s }

/-- Reachable states of the protocol over `obj`, under the tag assumption. -/
def HostedReaches (obj : HostObject H) (raw : Buffer) (h₀ : H) (x : Hosted cfg H) : Prop :=
  Reachable (hostedStep obj) (fun x _ => NoTagWrap x.protocol) (Hosted.init cfg raw h₀) x

abbrev anyService : Service := fun _ _ _ _ => True

theorem serves_anyService (s : State cfg) (a : Action cfg) : Serves anyService s a := by
  cases a <;> simp [Serves]

/-- A step of a wave leaves the consumer, the executions and the numbers of the calls. -/
structure SameCalls (s s' : State cfg) : Prop where
  log : s'.log = s.log
  consumer : s'.consumer = s.consumer
  call : ∀ v, (s'.waves v).call = (s.waves v).call
  req : ∀ v, (s'.waves v).req = (s.waves v).req
  active : ∀ v, (s'.waves v).pc ≠ .idle → (s.waves v).pc ≠ .idle

theorem SameCalls.of_wave {w : Fin cfg.waves} {t : Wave} (hlog : s'.log = s.log)
    (hconsumer : s'.consumer = s.consumer) (hwaves : s'.waves = Function.update s.waves w t)
    (hcall : t.call = (s.waves w).call) (hreq : t.req = (s.waves w).req)
    (hactive : (s.waves w).pc ≠ .idle) : SameCalls s s' := by
  have hwave : ∀ v, s'.waves v = s.waves v ∨ v = w ∧ s'.waves v = t := by
    intro v
    rw [hwaves]
    by_cases hvw : v = w
    · exact .inr ⟨hvw, by rw [hvw, Function.update_self]⟩
    · exact .inl (Function.update_of_ne hvw _ _)
  refine ⟨hlog, hconsumer, fun v => ?_, fun v => ?_, fun v hv => ?_⟩
  · rcases hwave v with h | ⟨rfl, h⟩
    · rw [h]
    · rw [h, hcall]
  · rcases hwave v with h | ⟨rfl, h⟩
    · rw [h]
    · rw [h, hreq]
  · rcases hwave v with h | ⟨rfl, -⟩
    · rwa [← h]
    · exact hactive

theorem WaveCase.active {w : Fin cfg.waves} (h : WaveCase s w s') : (s.waves w).pc ≠ .idle := by
  cases h <;> simp_all

theorem WaveCase.sameCalls {w : Fin cfg.waves} (h : WaveCase s w s') : SameCalls s s' := by
  have hactive := h.active
  cases h with
  | spin hpc hflag => exact ⟨rfl, rfl, fun _ => rfl, fun _ => rfl, fun _ h => h⟩
  | _ => exact .of_wave rfl rfl rfl rfl rfl hactive

theorem WaveCase.other {v w : Fin cfg.waves} (h : WaveCase s w s') (hv : v ≠ w) :
    s'.waves v = s.waves v := by
  cases h with
  | spin hpc hflag => rfl
  | _ => exact Function.update_of_ne hv _ _

/-- A step of a wave keeps each wave in or out of a call, but for a call that returns. -/
theorem WaveCase.returns {w : Fin cfg.waves} (h : WaveCase s w s') (v : Fin cfg.waves) :
    ((s'.waves v).pc = .idle ↔ (s.waves v).pc = .idle) ∧
      ((s.waves v).pc = .idle → (s'.waves v).retval = (s.waves v).retval) ∨
    (s.waves v).pc ≠ .idle ∧ (s'.waves v).pc = .idle ∧
      ⟨(s.waves v).call, (s.waves v).req, (s'.waves v).retval⟩ ∈ s'.completed := by
  have hactive := h.active
  by_cases hv : v = w
  · subst hv
    cases h with
    | pushFree hpc htop => exact .inr ⟨hactive, by simp, by simp⟩
    | fillWord j hpc =>
      refine .inl ⟨iff_of_false ?_ hactive, fun h => absurd h hactive⟩
      simp only [State.setWave_waves, Function.update_self]
      split_ifs <;> simp
    | read j hpc =>
      refine .inl ⟨iff_of_false ?_ hactive, fun h => absurd h hactive⟩
      simp only [State.setWave_waves, Function.update_self]
      split_ifs <;> simp
    | spin hpc hflag => exact .inl ⟨Iff.rfl, fun _ => rfl⟩
    | _ => exact .inl ⟨iff_of_false (by simp) hactive, fun h => absurd h hactive⟩
  · rw [h.other hv]
    exact .inl ⟨Iff.rfl, fun _ => rfl⟩

theorem WaveCase.completed {w : Fin cfg.waves} (h : WaveCase s w s') :
    s'.completed = s.completed ∨ ∃ retval,
      s'.completed = ⟨(s.waves w).call, (s.waves w).req, retval⟩ :: s.completed := by
  cases h with
  | pushFree hpc htop => exact .inr ⟨_, rfl⟩
  | _ => exact .inl rfl

/-- The header of the packet that the consumer answers is not filled anew. -/
theorem WaveCase.callOf_iter {w : Fin cfg.waves} {L : Lists} (h : WaveCase s w s') (hinv : Inv s L)
    (hpc : s.consumer.pc ≠ .idle ∧ s.consumer.pc ≠ .loadNext) :
    s'.callOf (cfg.index s.consumer.iter) = s.callOf (cfg.index s.consumer.iter) := by
  cases h with
  | fillHeader hfill =>
    obtain ⟨v, hposted, hv, -⟩ := hinv.answered_holder hpc
    have hne : cfg.index (s.waves w).packet_ptr ≠ cfg.index s.consumer.iter := by
      intro he
      have hown : (s.waves w).pc.owns := by simp [hfill, Pc.owns]
      obtain rfl := hinv.holding.inj w v hown (Pc.owns_of_filled (Pc.filled_of_posted hposted))
        (he.trans hv.symm)
      simp [hfill, Pc.posted] at hposted
    simp only [State.setWave_callOf, hinv.index_eq]
    exact Function.update_of_ne hne.symm _ _
  | _ => rfl

theorem completedSince_self (h : s'.completed = s.completed) : s'.completedSince s = [] := by
  simp [State.completedSince, h]

theorem completedSince_cons {c : Completed} (h : s'.completed = c :: s.completed) :
    s'.completedSince s = [c] := by
  simp [State.completedSince, h]

theorem serviceCall_eq_some {call : ServiceCall} (h : s.serviceCall = some call) :
    ∃ lane : Fin 64, s.consumer.pc = .lane lane ∧ laneActive s.consumer.activemask lane ∧
      s.consumer.service_id ∈ executableServices ∧
      call = ⟨s.consumer.service_id, s.buf.device_id, s.buf.getPayload s.consumer.iter lane⟩ := by
  unfold State.serviceCall at h
  cases hpc : s.consumer.pc with
  | lane wi =>
    simp only [hpc] at h
    split_ifs at h with hwi hactive
    exact ⟨⟨wi, hwi⟩, rfl, hactive.1, hactive.2, (Option.some.inj h).symm⟩
  | _ => simp [hpc] at h

theorem serviceCall_of_lane {lane : Fin 64} (hpc : s.consumer.pc = .lane lane)
    (hactive : laneActive s.consumer.activemask lane)
    (hservice : s.consumer.service_id ∈ executableServices) :
    s.serviceCall =
      some ⟨s.consumer.service_id, s.buf.device_id, s.buf.getPayload s.consumer.iter lane⟩ := by
  simp [State.serviceCall, hpc, hactive, hservice]

theorem HostCase.executes {out : Slot} {call : ServiceCall} (h : HostCase s out s')
    (hcall : s.serviceCall = some call) : ∃ lane : Fin 64, s.consumer.pc = .lane lane ∧
      s'.waves = s.waves ∧ s'.completed = s.completed ∧ s'.callOf = s.callOf ∧
      s'.consumer.iter = s.consumer.iter ∧
      s'.log = s.log ++ [⟨s.callOf (s.buf.index s.consumer.iter), lane, call.service_id,
        call.device_id, call.args, out⟩] := by
  obtain ⟨lane, hpc, hactive, -, rfl⟩ := serviceCall_eq_some hcall
  cases h with
  | execute lane' hpc' =>
    obtain rfl : lane = lane' := Fin.ext (HostPc.lane.inj (hpc.symm.trans hpc'))
    exact ⟨lane, hpc, rfl, rfl, rfl, rfl, rfl⟩
  | skip lane' hpc' hactive' =>
    obtain rfl : lane = lane' := Fin.ext (HostPc.lane.inj (hpc.symm.trans hpc'))
    exact absurd hactive hactive'
  | lanesDone wi hpc' hwi =>
    obtain rfl := HostPc.lane.inj (hpc.symm.trans hpc')
    omega
  | _ => simp_all

/-- A step of the consumer that calls no service: what it leaves alone, and where it can come
to a lane from. -/
structure QuietHost (s s' : State cfg) : Prop where
  log : s'.log = s.log
  waves : s'.waves = s.waves
  completed : s'.completed = s.completed
  lane : ∀ wi, s'.consumer.pc = .lane wi → wi = 0 ∨ (∃ wi', s.consumer.pc = .lane wi') ∧
    s'.consumer.iter = s.consumer.iter ∧ s'.callOf = s.callOf

theorem HostCase.quiet {out : Slot} (h : HostCase s out s') (hcall : s.serviceCall = none) :
    QuietHost s s' := by
  cases h with
  | execute lane hpc hactive hservice =>
    rw [serviceCall_of_lane hpc hactive hservice] at hcall
    simp at hcall
  | skip lane hpc =>
    exact ⟨rfl, rfl, rfl, fun wi h => .inr ⟨⟨lane, hpc⟩, rfl, rfl⟩⟩
  | loadService hpc =>
    refine ⟨rfl, rfl, rfl, fun wi h => .inl ?_⟩
    dsimp only at h
    split_ifs at h
    exact (HostPc.lane.inj h).symm
  | clear hpc =>
    refine ⟨rfl, rfl, rfl, fun wi h => ?_⟩
    dsimp only at h
    split_ifs at h
  | grabNone hpc htop => exact ⟨rfl, rfl, rfl, by simp [hpc]⟩
  | _ => exact ⟨rfl, rfl, rfl, by simp⟩

/-- The successors of a step of the protocol over a host. -/
inductive HostedCase (obj : HostObject H) (x : Hosted cfg H) :
    HostedAction cfg → Hosted cfg H → Prop
  | invoke (w : Fin cfg.waves) (req : Request) {s : State cfg}
      (hs : step x.protocol (.invoke w req) = some s) :
      HostedCase obj x (.invoke w req) ⟨s, x.host, x.history ++ invocation x.protocol.calls req⟩
  | wave (w : Fin cfg.waves) {s : State cfg} (hs : waveStep x.protocol w = some s) :
      HostedCase obj x (.wave w)
        ⟨s, x.host, x.history ++ (s.completedSince x.protocol).flatMap Completed.response⟩
  | execute {call : ServiceCall} {s : State cfg} (hcall : x.protocol.serviceCall = some call)
      (hs : hostStep x.protocol (obj x.host call).2 = some s) :
      HostedCase obj x .host ⟨s, (obj x.host call).1, x.history⟩
  | quiet {s : State cfg} (hcall : x.protocol.serviceCall = none)
      (hs : hostStep x.protocol (fun _ => 0) = some s) :
      HostedCase obj x .host ⟨s, x.host, x.history⟩

theorem hosted_cases {obj : HostObject H} {x x' : Hosted cfg H} {a : HostedAction cfg}
    (h : hostedStep obj x a = some x') : HostedCase obj x a x' := by
  cases a with
  | invoke w req =>
    obtain ⟨s, hs, rfl⟩ := Option.map_eq_some_iff.mp h
    exact .invoke w req hs
  | wave w =>
    obtain ⟨s, hs, rfl⟩ := Option.map_eq_some_iff.mp h
    exact .wave w hs
  | host =>
    simp only [hostedStep] at h
    cases hcall : x.protocol.serviceCall with
    | some call =>
      simp only [hcall] at h
      obtain ⟨s, hs, rfl⟩ := Option.map_eq_some_iff.mp h
      exact .execute hcall hs
    | none =>
      simp only [hcall] at h
      obtain ⟨s, hs, rfl⟩ := Option.map_eq_some_iff.mp h
      exact .quiet hcall hs

theorem HostedCase.protocol {obj : HostObject H} {x x' : Hosted cfg H} {a : HostedAction cfg}
    (h : HostedCase obj x a x') : ∃ a, step x.protocol a = some x'.protocol := by
  cases h with
  | invoke w req hs => exact ⟨_, hs⟩
  | wave w hs => exact ⟨.wave w, hs⟩
  | execute hcall hs => exact ⟨.host _, hs⟩
  | quiet hcall hs => exact ⟨.host _, hs⟩

theorem HostedReaches.protocol {obj : HostObject H} {h₀ : H} {x : Hosted cfg H}
    (h : HostedReaches obj raw h₀ x) : ReachesServing anyService raw x.protocol := by
  induction h with
  | refl => exact .refl
  | tail _ hok hs ih =>
    obtain ⟨a, ha⟩ := (hosted_cases hs).protocol
    exact ih.tail ⟨hok, serves_anyService _ a⟩ ha

/-- What the history and the host say of the executions and the calls. -/
structure Recorded (obj : HostObject H) (h₀ : H) (x : Hosted cfg H) : Prop where
  answers : obj.answers h₀ (x.protocol.log.map (·.serviceCall)) = x.protocol.log.map (·.result)
  host : x.host = obj.after h₀ (x.protocol.log.map (·.serviceCall))
  grouped : ∃ groups, Grouped Execution.call groups x.protocol.log
  /-- The call that is being served has the last execution, or none yet. -/
  current : ∀ wi, x.protocol.consumer.pc = .lane wi → ∀ e ∈ x.protocol.log,
    e.call = x.protocol.callOf (cfg.index x.protocol.consumer.iter) →
    ∃ e', x.protocol.log.getLast? = some e' ∧ e'.call = e.call
  waves : ∀ w, (x.protocol.waves w).pc ≠ .idle → ¬ (x.protocol.waves w).req.Sanitizes →
    .invoke (x.protocol.waves w).call (x.protocol.waves w).req ∈ x.history
  completed : ∀ c ∈ x.protocol.completed, ¬ c.req.Sanitizes → .invoke c.call c.req ∈ x.history
  responded : ∀ k r, .respond k r ∈ x.history →
    ∃ c ∈ x.protocol.completed, ¬ c.req.Sanitizes ∧ c.call = k ∧ c.results = r
  realTime : ∀ a b, EndsBefore x.history a b →
    ∀ e e', [e, e'].Sublist x.protocol.log → e.call = b → e'.call = a → False

theorem Recorded.init (cfg : Config) (obj : HostObject H) (raw : Buffer) (h₀ : H) :
    Recorded obj h₀ (Hosted.init cfg raw h₀) where
  answers := rfl
  host := rfl
  grouped := ⟨[], .nil⟩
  current wi h := by simp [Hosted.init, State.init] at h
  waves w h := by simp [Hosted.init, State.init] at h
  completed := by simp [Hosted.init, State.init]
  responded := by simp [Hosted.init]
  realTime a b h := by
    obtain ⟨answer, op, hsub⟩ := h
    simp [Hosted.init] at hsub

section Steps

variable {obj : HostObject H} {h₀ : H} {x : Hosted cfg H} {L : Lists}

theorem respond_notMem_invocation {k call : ℕ} {req : Request} {r : List Slot} :
    .respond k r ∉ invocation call req := by
  unfold invocation
  split_ifs <;> simp

theorem Recorded.invoke (h : Recorded obj h₀ x) (hm : Matched anyService x.protocol)
    {w : Fin cfg.waves} {req : Request} (hs : step x.protocol (.invoke w req) = some s') :
    Recorded obj h₀ ⟨s', x.host, x.history ++ invocation x.protocol.calls req⟩ := by
  cases step_cases hs with
  | invoke _ _ hpc =>
    refine ⟨h.answers, h.host, h.grouped, h.current, fun v hv hreq => ?_, fun c hc hreq => ?_,
      fun k r hr => ?_, fun a b hab e e' hsub he he' => ?_⟩
    · by_cases hvw : v = w
      · subst hvw
        simp only [State.setWave_waves, Function.update_self] at hreq ⊢
        apply List.mem_append_right
        rw [invocation, if_neg hreq]
        exact List.mem_singleton_self _
      · simp only [State.setWave_waves, Function.update_of_ne hvw] at hv hreq ⊢
        exact List.mem_append_left _ (h.waves v hv hreq)
    · exact List.mem_append_left _ (h.completed c hc hreq)
    · rcases List.mem_append.mp hr with hr | hr
      · exact h.responded k r hr
      · exact absurd hr respond_notMem_invocation
    · have hold : EndsBefore x.history a b ∨ b = x.protocol.calls := by
        by_cases hreq : req.Sanitizes
        · simp only [invocation, if_pos hreq, List.append_nil] at hab
          exact .inl hab
        · simp only [invocation, if_neg hreq] at hab
          exact hab.append_invoke.imp_right And.left
      rcases hold with hold | rfl
      · exact h.realTime a b hold e e' hsub he he'
      · have hmem : e ∈ x.protocol.log := hsub.subset (by simp)
        have := (hm.log e hmem).1.lt hm.numbered
        omega

theorem Recorded.wave (h : Recorded obj h₀ x) (hinv : Inv x.protocol L) {w : Fin cfg.waves}
    (hw : WaveCase x.protocol w s') :
    Recorded obj h₀
      ⟨s', x.host, x.history ++ (s'.completedSince x.protocol).flatMap Completed.response⟩ := by
  obtain ⟨hlog, hconsumer, hcall, hreq, hactive⟩ := hw.sameCalls
  have hcurrent : ∀ wi, s'.consumer.pc = .lane wi → ∀ e ∈ s'.log,
      e.call = s'.callOf (cfg.index s'.consumer.iter) →
      ∃ e', s'.log.getLast? = some e' ∧ e'.call = e.call := by
    intro wi hpc e he hce
    rw [hconsumer] at hpc hce
    rw [hlog] at he ⊢
    rw [hw.callOf_iter hinv (by simp [hpc])] at hce
    exact h.current wi hpc e he hce
  have hwaves : ∀ v, (s'.waves v).pc ≠ .idle → ¬ (s'.waves v).req.Sanitizes →
      .invoke (s'.waves v).call (s'.waves v).req ∈ x.history := by
    intro v hv hsan
    rw [hreq] at hsan ⊢
    rw [hcall]
    exact h.waves v (hactive v hv) hsan
  rcases hw.completed with hc | ⟨retval, hc⟩
  · rw [completedSince_self hc, List.flatMap_nil, List.append_nil]
    refine ⟨hlog ▸ h.answers, hlog ▸ h.host, hlog ▸ h.grouped, hcurrent, hwaves, ?_, ?_, ?_⟩
    · rw [hc]
      exact h.completed
    · rw [hc]
      exact h.responded
    · rw [hlog]
      exact h.realTime
  · rw [completedSince_cons hc, List.flatMap_singleton]
    refine ⟨hlog ▸ h.answers, hlog ▸ h.host, hlog ▸ h.grouped, hcurrent,
      fun v hv hsan => List.mem_append_left _ (hwaves v hv hsan), fun c hmem hsan => ?_,
      fun k r hr => ?_, fun a b hab => ?_⟩
    · rw [hc] at hmem
      rcases List.mem_cons.mp hmem with rfl | hmem
      · exact List.mem_append_left _ (h.waves w hw.active hsan)
      · exact List.mem_append_left _ (h.completed c hmem hsan)
    · rw [hc]
      rcases List.mem_append.mp hr with hr | hr
      · obtain ⟨c, hmem, hrest⟩ := h.responded k r hr
        exact ⟨c, List.mem_cons_of_mem _ hmem, hrest⟩
      · unfold Completed.response at hr
        split_ifs at hr with hsan
        · simp at hr
        · obtain ⟨rfl, rfl⟩ : k = _ ∧ r = _ := by simpa using hr
          exact ⟨_, List.mem_cons_self, hsan, rfl, rfl⟩
    · rw [hlog]
      have hold : EndsBefore x.history a b := by
        unfold Completed.response at hab
        split_ifs at hab with hsan
        · simpa using hab
        · exact hab.append_respond
      exact h.realTime a b hold

theorem Recorded.execute (h : Recorded obj h₀ x) (hm : Matched anyService x.protocol)
    (hinv : Inv x.protocol L) {call : ServiceCall} (hcall : x.protocol.serviceCall = some call)
    (hs : HostCase x.protocol (obj x.host call).2 s') :
    Recorded obj h₀ ⟨s', (obj x.host call).1, x.history⟩ := by
  obtain ⟨lane, hpc, hwaves, hcompleted, hcallOf, hiter, hlog⟩ := hs.executes hcall
  obtain ⟨w, hposted, hw, -, -, hfilled⟩ := hm.at_lane hinv hpc
  have hidx := hinv.index_eq x.protocol.consumer.iter
  have hidle : (x.protocol.waves w).pc ≠ .idle := by
    intro he
    simp [he, Pc.posted] at hposted
  rw [hidx] at hlog
  set run : Execution := ⟨x.protocol.callOf (cfg.index x.protocol.consumer.iter), lane,
    call.service_id, call.device_id, call.args, (obj x.host call).2⟩
  have hops : s'.log.map (·.serviceCall) = x.protocol.log.map (·.serviceCall) ++ [call] := by
    rw [hlog, List.map_append]
    rfl
  refine ⟨?_, ?_, ?_, fun wi _ e _ he => ?_, ?_, ?_, ?_, fun a b hab e e' hsub he he' => ?_⟩
  · rw [hops, hlog, SequentialObject.answers_append, h.answers, ← h.host, List.map_append]
    rfl
  · rw [hops, SequentialObject.after_append, ← h.host]
    rfl
  · obtain ⟨groups, hg⟩ := h.grouped
    rw [hlog]
    by_cases hnew : ∀ e ∈ x.protocol.log, e.call ≠ run.call
    · exact ⟨_, hg.append_new hnew⟩
    · push Not at hnew
      obtain ⟨e, he, hce⟩ := hnew
      obtain ⟨e', hlast, hce'⟩ := h.current lane hpc e he hce
      obtain ⟨gs, as, rfl⟩ := hg.last hlast
      rw [hce', hce] at hg
      exact ⟨_, hg.append_last⟩
  · rw [hcallOf, hiter] at he
    exact ⟨run, by rw [hlog, List.getLast?_concat], he.symm⟩
  · rw [hwaves]
    exact h.waves
  · rw [hcompleted]
    exact h.completed
  · rw [hcompleted]
    exact h.responded
  · have hlater : run.call ≠ a := by
      obtain ⟨answer, op, hab⟩ := hab
      obtain ⟨c, hc, -, rfl, -⟩ := h.responded a answer (hab.subset (by simp))
      exact fun hce => hm.numbered.completed_ne c hc w hidle (hce.symm.trans hfilled.call)
    rw [hlog, List.sublist_append_iff] at hsub
    obtain ⟨l₁, l₂, heq, h₁, h₂⟩ := hsub
    rcases List.sublist_singleton.mp h₂ with rfl | rfl
    · rw [List.append_nil] at heq
      exact h.realTime a b hab e e' (heq ▸ h₁) he he'
    · have hsplit : [e] ++ [e'] = l₁ ++ [run] := heq
      obtain ⟨-, hlast⟩ := List.append_inj' hsplit rfl
      exact hlater (List.singleton_inj.mp hlast ▸ he')

theorem Recorded.quiet (h : Recorded obj h₀ x) (hm' : Matched anyService s') (hinv' : Inv s' L)
    (hs : QuietHost x.protocol s') : Recorded obj h₀ ⟨s', x.host, x.history⟩ := by
  obtain ⟨hlog, hwaves, hcompleted, hlane⟩ := hs
  refine ⟨hlog ▸ h.answers, hlog ▸ h.host, hlog ▸ h.grouped, fun wi hpc e he hce => ?_,
    hwaves ▸ h.waves, hcompleted ▸ h.completed, hcompleted ▸ h.responded, hlog ▸ h.realTime⟩
  rcases hlane wi hpc with rfl | ⟨⟨wi', hpc'⟩, hiter, hcallOf⟩
  · -- no lane is served yet, so the call has no execution
    have hpc₀ : s'.consumer.pc = .lane ((0 : Fin 64) : ℕ) := hpc
    obtain ⟨w, -, -, -, -, hfilled⟩ := hm'.at_lane hinv' hpc₀
    have hruns : s'.runsOf (s'.waves w).call = [] := by
      have hlanes := hfilled.lanes
      simp only [Fin.val_zero, lanesBelow_zero, ite_self, List.map_eq_nil_iff] at hlanes
      exact hlanes
    have hmem : e ∈ s'.runsOf (s'.waves w).call :=
      List.mem_filter.mpr ⟨he, by simpa using hce.trans hfilled.call⟩
    rw [hruns] at hmem
    simp at hmem
  · rw [hlog] at he ⊢
    rw [hiter, hcallOf] at hce
    exact h.current wi' hpc' e he hce

end Steps

theorem HostedReaches.recorded {obj : HostObject H} {h₀ : H} {x : Hosted cfg H}
    (h : HostedReaches obj raw h₀ x) : Recorded obj h₀ x := by
  apply h.invariant₂ (P := fun x => ReachesServing anyService raw x.protocol)
    (fun _ hr => HostedReaches.protocol hr) (Recorded.init cfg obj raw h₀)
  intro x a x' hreach hrec hok hs
  have hm := hreach.matched
  obtain ⟨L, hinv⟩ := hreach.reaches.inv
  have hcase := hosted_cases hs
  obtain ⟨b, hb⟩ := hcase.protocol
  have hreach' : ReachesServing anyService raw x'.protocol :=
    hreach.tail ⟨hok, serves_anyService _ b⟩ hb
  cases hcase with
  | invoke w req hp => exact hrec.invoke hm hp
  | wave w hp => exact hrec.wave hinv (waveStep_cases hp)
  | execute hcall hp => exact hrec.execute hm hinv hcall (hostStep_cases hp)
  | quiet hcall hp =>
    obtain ⟨L', hinv'⟩ := hreach'.reaches.inv
    exact hrec.quiet hreach'.matched hinv' ((hostStep_cases hp).quiet hcall)

theorem map_serviceCall {dev : BitVec 32} {req : Request} {runs : List Execution}
    (hof : ∀ e ∈ runs, e.OfRequest dev req) :
    runs.map (·.serviceCall) =
      (runs.map (·.lane)).map fun l => ⟨req.service_id, dev, req.args l⟩ := by
  rw [List.map_map]
  apply List.map_congr_left
  intro e he
  have h := hof e he
  rw [Execution.serviceCall, h.service_id, h.device_id, h.args]
  rfl

/-- The call is done on the host: each active lane has run. -/
structure Request.Done (dev : BitVec 32) (req : Request) (runs : List Execution) : Prop where
  lanes : runs.map (·.lane) = activeLanes req.activemask
  run : ∀ e ∈ runs, e.OfRequest dev req

theorem Request.Done.serviceCalls {dev : BitVec 32} {req : Request} {runs : List Execution}
    (h : req.Done dev runs) : runs.map (·.serviceCall) = req.serviceCalls dev := by
  rw [map_serviceCall h.run, h.lanes, Request.serviceCalls]

/-- The consumer is serving the lanes of the call of `w`. -/
structure BeingServed (s : State cfg) (w : Fin cfg.waves) (runs : List Execution) : Prop where
  active : (s.waves w).pc ≠ .idle
  lane : ∃ wi, s.consumer.pc = .lane wi
  call : (s.waves w).call = s.callOf (cfg.index s.consumer.iter)
  isPrefix : runs.map (·.serviceCall) <+: (s.waves w).req.serviceCalls cfg.device_id

section Linearization

variable {obj : HostObject H} {h₀ : H} {x : Hosted cfg H} {L : Lists}

/-- Every call with an execution is done, but for the one whose lanes are being served. -/
theorem Recorded.request (h : Recorded obj h₀ x) (hm : Matched anyService x.protocol)
    {e : Execution} (he : e ∈ x.protocol.log) :
    (∃ req : Request, .invoke e.call req ∈ x.history ∧
      req.Done cfg.device_id (x.protocol.runsOf e.call)) ∨
    ∃ w, (x.protocol.waves w).call = e.call ∧
      BeingServed x.protocol w (x.protocol.runsOf e.call) := by
  have hmem : e ∈ x.protocol.runsOf e.call := List.mem_filter.mpr ⟨he, by simp⟩
  rcases (hm.log e he).1 with ⟨c, hc, hcall⟩ | ⟨w, hw, hcall⟩
  · rw [← hcall] at hmem ⊢
    have hans := hm.answered c hc
    by_cases hsan : c.req.Sanitizes
    · rw [(hans.sanitized hsan).1] at hmem
      simp at hmem
    · obtain ⟨hlanes, hrun, -⟩ := hans.executed hsan
      exact .inl ⟨c.req, h.completed c hc hsan, hlanes, fun e he => (hrun e he).1⟩
  · rw [← hcall] at hmem ⊢
    have hf : (x.protocol.waves w).pc.filled := by
      by_contra hf
      have hu : (x.protocol.waves w).pc.unfilled := by
        cases hpc : (x.protocol.waves w).pc <;> simp [hpc, Pc.filled, Pc.unfilled] at hw hf ⊢
      rw [((hm.wave w).unfilled hu).1] at hmem
      simp at hmem
    have hfilled := (hm.wave w).filled hf
    have hlanes := hfilled.lanes
    have hsan : ¬ (x.protocol.waves w).req.Sanitizes := by
      intro hsan
      rw [if_pos hsan, List.map_eq_nil_iff] at hlanes
      rw [hlanes] at hmem
      simp at hmem
    rw [if_neg hsan] at hlanes
    have hrun : ∀ e ∈ x.protocol.runsOf (x.protocol.waves w).call,
        e.OfRequest cfg.device_id (x.protocol.waves w).req := fun e he => (hfilled.run e he).1
    by_cases hdone : 64 ≤ x.protocol.served (cfg.index (x.protocol.waves w).packet_ptr)
    · exact .inl ⟨_, h.waves w hw hsan, by rw [hlanes, lanesBelow_of_le _ hdone], hrun⟩
    · have hne : lanesBelow (x.protocol.waves w).req.activemask
          (x.protocol.served (cfg.index (x.protocol.waves w).packet_ptr)) ≠ [] := by
        rw [← hlanes]
        exact List.ne_nil_of_mem (List.mem_map_of_mem hmem)
      have hpos : x.protocol.served (cfg.index (x.protocol.waves w).packet_ptr) ≠ 0 := by
        intro hzero
        simp [hzero] at hne
      unfold State.served at hdone hpos
      split_ifs at hdone hpos with hanswering hflag
      · obtain ⟨-, hiter⟩ := hanswering
        refine .inr ⟨w, rfl, hw, ?_, by rw [hiter, hfilled.call], ?_⟩
        · cases hpc : x.protocol.consumer.pc with
          | lane wi => exact ⟨wi, rfl⟩
          | clear => simp [hpc, HostPc.lanes] at hdone
          | _ => simp [hpc, HostPc.lanes] at hpos
        · rw [map_serviceCall hrun, hlanes, Request.serviceCalls]
          apply List.IsPrefix.map
          exact (List.take_prefix _ _).filter _
      · simp at hdone
      · simp at hpos

/-- The executions are those of the calls that are done, one call after another, and then
those of the call that is being served. -/
theorem Recorded.split (h : Recorded obj h₀ x) (hm : Matched anyService x.protocol) :
    ∃ (done : List (ℕ × List Execution)) (pending : List Execution),
      Grouped Execution.call done (done.map (·.2)).flatten ∧
      x.protocol.log = (done.map (·.2)).flatten ++ pending ∧
      (∀ g ∈ done, ∃ req : Request, .invoke g.1 req ∈ x.history ∧ req.Done cfg.device_id g.2) ∧
      (pending = [] ∨ ∃ w, (∀ e ∈ pending, e.call = (x.protocol.waves w).call) ∧
        BeingServed x.protocol w pending) := by
  obtain ⟨groups, hg⟩ := h.grouped
  have hrequest : ∀ g ∈ groups,
      (∃ req : Request, .invoke g.1 req ∈ x.history ∧ req.Done cfg.device_id g.2) ∨
      ∃ w, (x.protocol.waves w).call = g.1 ∧ BeingServed x.protocol w g.2 := by
    intro g hmem
    obtain ⟨e, he, hcall⟩ := hg.mem_keys.mp (List.mem_map_of_mem hmem)
    have hruns : x.protocol.runsOf e.call = g.2 := by
      rw [hcall]
      exact hg.filter_eq hmem
    have := h.request hm he
    rwa [hruns, hcall] at this
  by_cases hall : ∀ g ∈ groups,
      ∃ req : Request, .invoke g.1 req ∈ x.history ∧ req.Done cfg.device_id g.2
  · exact ⟨groups, [], hg.flatten ▸ hg, by rw [List.append_nil, hg.flatten], hall, .inl rfl⟩
  · push Not at hall
    obtain ⟨g, hmem, hnot⟩ := hall
    obtain ⟨w, hw, hserved⟩ := (hrequest g hmem).resolve_left fun ⟨req, hin, hdone⟩ =>
      hnot req hin hdone
    obtain ⟨e, he, hcall⟩ := hg.mem_keys.mp (List.mem_map_of_mem hmem)
    obtain ⟨wi, hpc⟩ := hserved.lane
    obtain ⟨e', hlast, hcall'⟩ := h.current wi hpc e he (by rw [hcall, ← hw, hserved.call])
    obtain ⟨gs, as, rfl⟩ := hg.last hlast
    -- the call being served is that of the last group, and of no other
    have hkey : e'.call = (x.protocol.waves w).call := by rw [hcall', hcall, hw]
    have hrest : ∀ g' ∈ gs, g'.1 ≠ e'.call := by
      intro g' hg' he
      have hnodup := hg.nodup
      rw [List.map_append, List.nodup_append] at hnodup
      exact hnodup.2.2 g'.1 (List.mem_map_of_mem hg') _ (by simp) he
    obtain rfl : g = (e'.call, as) := by
      rcases List.mem_append.mp hmem with hmem | hmem
      · exact absurd (by rw [hkey, hw]) (hrest g hmem)
      · exact List.mem_singleton.mp hmem
    refine ⟨gs, as, ?_, by simp [hg.flatten], fun g' hg' => ?_, .inr ⟨w, fun a ha => ?_, hserved⟩⟩
    · exact ⟨rfl, (List.nodup_append.mp (List.map_append ▸ hg.nodup)).1,
        fun g' hg' => hg.ne_nil g' (List.mem_append_left _ hg'),
        fun g' hg' => hg.key_eq g' (List.mem_append_left _ hg')⟩
    · apply (hrequest g' (List.mem_append_left _ hg')).resolve_right
      rintro ⟨v, hv, hserved'⟩
      apply hrest g' hg'
      rw [hkey, ← hv, hserved'.call, hserved.call]
    · rw [hg.key_eq _ hmem a ha, hkey]

/-- A call that has returned is not the one being served. -/
theorem Recorded.returned (h : Recorded obj h₀ x) (hm : Matched anyService x.protocol)
    {done : List (ℕ × List Execution)} {pending : List Execution}
    (hg : Grouped Execution.call done (done.map (·.2)).flatten)
    (hlog : x.protocol.log = (done.map (·.2)).flatten ++ pending)
    (hpending : ∀ e ∈ pending, ∃ w, (x.protocol.waves w).pc ≠ .idle ∧
      e.call = (x.protocol.waves w).call) {k : ℕ} {r : List Slot}
    (hr : .respond k r ∈ x.history) : ∃ g ∈ done, g.1 = k ∧ g.2.map (·.result) = r := by
  obtain ⟨c, hc, hsan, rfl, rfl⟩ := h.responded k r hr
  obtain ⟨hlanes, hrun, -⟩ := (hm.answered c hc).executed hsan
  have hother : pending.filter (·.call = c.call) = [] := by
    rw [List.filter_eq_nil_iff]
    intro e he
    obtain ⟨w, hw, hcall⟩ := hpending e he
    rw [decide_eq_true_eq, hcall]
    exact (hm.numbered.completed_ne c hc w hw).symm
  have hruns : x.protocol.runsOf c.call = (done.map (·.2)).flatten.filter (·.call = c.call) := by
    rw [State.runsOf, hlog, List.filter_append, hother, List.append_nil]
  have hne : x.protocol.runsOf c.call ≠ [] := by
    intro hnil
    rw [hnil] at hlanes
    exact activeLanes_ne_nil c.req.active hlanes.symm
  obtain ⟨e, he⟩ := List.exists_mem_of_ne_nil _ hne
  rw [hruns, List.mem_filter, decide_eq_true_eq] at he
  obtain ⟨g, hmem, hkey⟩ := List.mem_map.mp (hg.mem_keys.mpr ⟨e, he.1, he.2⟩)
  refine ⟨g, hmem, hkey, ?_⟩
  have hgroup : x.protocol.runsOf c.call = g.2 := by
    rw [hruns, ← hkey]
    exact hg.filter_eq hmem
  rw [← hgroup, Completed.results, ← hlanes, List.map_map]
  exact List.map_congr_left fun e he => (hrun e he).2

end Linearization

/-- In every reachable state the calls that have returned, and some that have not, take effect
one after another, each as one operation of the host with all its active lanes: every call got
the answers of its operation, and a call that returned before another was made comes first.
The host has besides run some first lanes of at most one call, which has not returned. -/
theorem calls_linearize (cfg : Config) (obj : HostObject H) (raw : Buffer) (h₀ : H)
    (x : Hosted cfg H) (h : HostedReaches obj raw h₀ x) :
    ∃ (order : List (ℕ × Request × List Slot)) (pending : List ServiceCall),
      Linearizes (waveObject obj cfg.device_id) h₀ x.history order ∧
      x.host = obj.after ((waveObject obj cfg.device_id).after h₀ (order.map (·.2.1))) pending ∧
      (pending = [] ∨ ∃ w, (x.protocol.waves w).pc ≠ .idle ∧
        pending <+: (x.protocol.waves w).req.serviceCalls cfg.device_id) := by
  have hrec := h.recorded
  have hm := h.protocol.matched
  obtain ⟨done, pending, hg, hlog, hdone, hserved⟩ := hrec.split hm
  choose! reqOf hinvoked hdone using hdone
  have hops : done.map (fun g => (reqOf g).serviceCalls cfg.device_id) =
      done.map (fun g => g.2.map (·.serviceCall)) :=
    List.map_congr_left fun g hg => (hdone g hg).serviceCalls.symm
  have hflat : ((done.map fun g => (reqOf g).serviceCalls cfg.device_id)).flatten =
      (done.map (·.2)).flatten.map (·.serviceCall) := by
    rw [hops, List.map_flatten, List.map_map]
    rfl
  have hanswers := hrec.answers
  have hhost := hrec.host
  rw [hlog, List.map_append, SequentialObject.answers_append, List.map_append, ← hflat] at hanswers
  rw [hlog, List.map_append, SequentialObject.after_append, ← hflat] at hhost
  obtain ⟨hlegal, -⟩ := List.append_inj hanswers
    (by rw [SequentialObject.length_answers, hflat, List.length_map, List.length_map])
  refine ⟨done.map fun g => (g.1, reqOf g, g.2.map (·.result)), pending.map (·.serviceCall),
    ⟨?_, ?_, ?_, fun k r hr => ?_, ?_⟩, ?_, ?_⟩
  · rw [List.map_map]
    exact hg.nodup
  · rw [List.map_map, List.map_map, waveObject, SequentialObject.comap_answers, List.map_map]
    apply SequentialObject.batch_answers_eq
    · intro g hg
      simp [← (hdone g hg).serviceCalls]
    · rw [List.map_flatten, List.map_map] at hlegal
      exact hlegal
  · intro e he
    obtain ⟨g, hmem, rfl⟩ := List.mem_map.mp he
    exact hinvoked g hmem
  · have hpending : ∀ e ∈ pending, ∃ w, (x.protocol.waves w).pc ≠ .idle ∧
        e.call = (x.protocol.waves w).call := by
      intro e he
      rcases hserved with rfl | ⟨w, hcall, hw⟩
      · simp at he
      · exact ⟨w, hw.active, hcall e he⟩
    obtain ⟨g, hmem, rfl, rfl⟩ := hrec.returned hm hg hlog hpending hr
    exact ⟨reqOf g, List.mem_map_of_mem hmem⟩
  · rw [List.pairwise_map]
    apply hg.pairwise.imp
    rintro g g' ⟨e, e', hsub, he, he'⟩ hbefore
    have hsub' : [e, e'].Sublist x.protocol.log := by
      rw [hlog]
      exact hsub.trans (List.sublist_append_left _ _)
    exact hrec.realTime _ _ hbefore e e' hsub' he he'
  · rw [hhost, waveObject, SequentialObject.comap_after, SequentialObject.batch_after, List.map_map,
      List.map_map]
    rfl
  · rcases hserved with rfl | ⟨w, -, hw⟩
    · exact .inl rfl
    · exact .inr ⟨w, hw.active, hw.isPrefix⟩

abbrev counter : HostObject ℕ := fun n _ => (n + 1, fun _ => BitVec.ofNat 64 n)

theorem firstWave_lt : 0 < oneWave.waves := Nat.zero_lt_one

def firstWave : Fin oneWave.waves := ⟨0, firstWave_lt⟩

/-- One call of `twoLanes`. -/
def countedCall : List (HostedAction oneWave) :=
  .invoke firstWave twoLanes :: List.replicate 15 (.wave firstWave) ++ List.replicate 70 .host ++
    List.replicate 13 (.wave firstWave)

def checkHosted (x : Hosted oneWave ℕ) (_ : HostedAction oneWave) : Bool :=
  decide (NoTagWrap x.protocol)

theorem countedCall_results : (runChecked (hostedStep counter) checkHosted
    (Hosted.init oneWave zeroed 0) countedCall).map (fun x =>
      (x.host, x.protocol.completed.length)) = some (2, 1) := by
  decide +kernel

theorem calls_linearize_countedCall : ∃ x : Hosted oneWave ℕ,
    x.host = 2 ∧ x.protocol.completed.length = 1 ∧
    ∃ (order : List (ℕ × Request × List Slot)) (pending : List ServiceCall),
      Linearizes (waveObject counter 0) 0 x.history order ∧
      x.host = counter.after ((waveObject counter 0).after 0 (order.map (·.2.1))) pending ∧
      (pending = [] ∨ ∃ w, (x.protocol.waves w).pc ≠ .idle ∧
        pending <+: (x.protocol.waves w).req.serviceCalls 0) := by
  obtain ⟨x, hx, hend⟩ := Option.map_eq_some_iff.mp countedCall_results
  have hreach : HostedReaches counter zeroed 0 x :=
    Reachable.of_runChecked (fun _ _ => of_decide_eq_true) _ _ hx
  obtain ⟨hhost, hlength⟩ := Prod.mk.inj hend
  exact ⟨x, hhost, hlength, calls_linearize oneWave counter zeroed 0 x hreach⟩

end Aomp.Hostexec
