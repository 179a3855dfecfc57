import Aomp.Fortran.Statements
import Aomp.Hostexec.MessageBuffers

/-!
# Output statements over hostexec

The lanes of all waves run output statements. Each request is stored into a message buffer,
sent through the protocol and served on the host, while stores, calls and services of other
lanes interleave with it. The runs are followed up to the flush: its results go to slots of
packets that have been returned since.
-/
namespace Aomp.Fortran

open Foundations Hostexec

def openAfter (rs : List StubRequest) : Option (ℕ × ℕ) :=
  rs.foldl (fun _ r => if r.fn = .endIoStatement then none else some r.key) none

@[simp] theorem openAfter_nil : openAfter [] = none := rfl

@[simp] theorem openAfter_concat (rs : List StubRequest) (r : StubRequest) :
    openAfter (rs ++ [r]) = if r.fn = .endIoStatement then none else some r.key := by
  simp [openAfter]

theorem exists_key_of_openAfter {rs : List StubRequest} {k : ℕ × ℕ} (h : openAfter rs = some k) :
    ∃ r ∈ rs, r.key = k := by
  rcases List.eq_nil_or_concat rs with rfl | ⟨rs, r, rfl⟩
  · simp at h
  · rw [List.concat_eq_append, openAfter_concat] at h
    split_ifs at h
    exact ⟨r, by simp, Option.some.inj h⟩

/-- A statement is a `Begin`, items and an `End`. -/
def Follows (rs : List StubRequest) (r : StubRequest) : Prop :=
  openAfter rs = if r.fn = .beginExternalListOutput then none else some r.key

section Service

variable {Lane ρ : Type} [DecidableEq Lane] {results : ℕ → Word} {ident : Lane → ℕ × ℕ}

/-- What a lane that has sent `rs` may send next, with its own team and thread. -/
structure Prints (ident : Lane → ℕ × ℕ) (l : Lane) (rs : List StubRequest) (r : StubRequest) :
    Prop where
  follows : Follows rs r
  key : r.key = ident l
  thread : r.thread_num < r.num_threads
  team : r.team_num < r.num_teams

/-- The requests of a lane among those that have arrived. -/
def requestsOf (arrived : List (Arrival (Lane × ℕ) ρ)) (l : Lane) : List StubRequest :=
  (arrived.filter fun a => a.origin.1 = l).map (·.req)

theorem requestsOf_concat (arrived : List (Arrival (Lane × ℕ) ρ)) (a : Arrival (Lane × ℕ) ρ)
    (l : Lane) : requestsOf (arrived ++ [a]) l =
      if a.origin.1 = l then requestsOf arrived l ++ [a.req] else requestsOf arrived l := by
  split_ifs with h <;> simp [requestsOf, h]

/-- The order of the flush on teams and threads. -/
def KeyBefore (j k : ℕ × ℕ) : Prop := j.1 < k.1 ∨ j.1 = k.1 ∧ j.2 < k.2

def Flushed {ι : Type} (called : List (Called ι ρ)) (arrived : List (Arrival ι ρ)) : Prop :=
  ∃ keys : List (ℕ × ℕ), keys.Pairwise KeyBefore ∧ (∀ a ∈ arrived, a.req.key ∈ keys) ∧
    called.map Called.signature = (bucketScan keys (·.req.key) arrived).map Arrival.signature

omit [DecidableEq Lane] in
theorem keys_nodup {keys : List (ℕ × ℕ)} (h : keys.Pairwise KeyBefore) : keys.Nodup := by
  apply h.imp
  rintro j k hlt rfl
  rcases hlt with hlt | ⟨-, hlt⟩ <;> exact lt_irrefl _ hlt

theorem Recorded.scanned {ι : Type} {s : State ι ρ} {l : List (Arrival ι ρ)} (h : Recorded s l)
    (hbounds : ∀ a ∈ l, a.req.thread_num < a.req.num_threads ∧ a.req.team_num < a.req.num_teams) :
    ∃ keys : List (ℕ × ℕ), keys.Pairwise KeyBefore ∧ (∀ a ∈ l, a.req.key ∈ keys) ∧
      (Fortran.scan s.max_num_teams.toNat s.max_num_threads.toNat s.deferred_fns.entries).map
        Entry.signature = (bucketScan keys (·.req.key) l).map Arrival.signature := by
  refine ⟨List.range s.max_num_teams.toNat ×ˢ List.range s.max_num_threads.toNat,
    pairwise_product List.pairwise_lt_range List.pairwise_lt_range, fun a ha => ?_, ?_⟩
  · obtain ⟨hthread, hteam⟩ := hbounds a ha
    rw [BitVec.lt_def] at hthread hteam
    exact List.mem_product.mpr ⟨List.mem_range.mpr (hteam.trans_le (h.teams a ha)),
      List.mem_range.mpr (hthread.trans_le (h.threads a ha))⟩
  · rw [scan_eq, h.entries, ← map_bucketScan (fun x : Arrival ι ρ × ℕ => x.1.req.key)
      (fun x => x.1.entry x.2) (fun x => by simp [Arrival.entry]), List.map_map,
      ← map_fst_bucketScan fun a : Arrival ι ρ => a.req.key, List.map_map]
    rfl

/-- The `End` that closes the last statement runs all that has arrived. -/
theorem Recorded.flushes {ι : Type} {s : State ι ρ} {l : List (Arrival ι ρ)} (h : Recorded s l)
    {r : Arrival ι ρ} (hclose : Closes (l ++ [r]))
    (hbounds : ∀ a ∈ l ++ [r], a.req.thread_num < a.req.num_threads ∧
      a.req.team_num < a.req.num_teams) :
    ∃ s', Fortran.serve results s r = some (s', .success) ∧ s'.deferred_fns = .freed ∧
      Flushed s'.called (l ++ [r]) := by
  have hfull := h.record r
  have hruns : ∀ q ∈ (s.record r.req r.return_value r.origin).deferred_fns.entries, q.Runs := by
    rw [hfull.entries]
    intro q hq
    obtain ⟨x, -, rfl⟩ := List.mem_map.mp hq
    exact x.1.req.entry_runs _ _ _
  obtain ⟨s', calls, hflush, hcalled, hsig, hfns, -⟩ :=
    flush_of_runs results rfl hfull.teams_lt hfull.threads_lt hruns
  obtain ⟨keys, hkeys, hcover, hscan⟩ := hfull.scanned hbounds
  refine ⟨s', ?_, hfns, keys, hkeys, hcover, ?_⟩
  · rw [Fortran.serve, fortranRtService_stub _ _ _ _ _ h.not_freed,
      if_pos ((h.triggers_iff r).mpr hclose), hflush]
  · rw [hcalled, hfull.called, List.nil_append, hsig]
    exact hscan

/-- The service has taken the requests that have arrived, each lane's in its order. -/
structure Attended (results : ℕ → Word) (ident : Lane → ℕ × ℕ) (lanes : Lanes Lane ρ)
    (arrived : List (Arrival (Lane × ℕ) ρ)) : Prop where
  openKey : ∀ l, lanes.openKey l = openAfter (requestsOf arrived l)
  key : ∀ a ∈ arrived, a.req.key = ident a.origin.1
  bounds : ∀ a ∈ arrived, a.req.thread_num < a.req.num_threads ∧ a.req.team_num < a.req.num_teams
  run : Reachable (issueStep results) Separate Lanes.init lanes
  deferred : lanes.service.deferred_fns ≠ .freed → Recorded lanes.service arrived
  flushed : lanes.service.deferred_fns = .freed → Flushed lanes.service.called arrived

theorem Attended.init (results : ℕ → Word) (ident : Lane → ℕ × ℕ) :
    Attended results ident (Lanes.init : Lanes Lane ρ) [] where
  openKey l := rfl
  key a ha := by simp at ha
  bounds a ha := by simp at ha
  run := .refl
  deferred _ := .init
  flushed h := by simp [Lanes.init, State.init] at h

section Serve

variable {lanes : Lanes Lane ρ} {arrived : List (Arrival (Lane × ℕ) ρ)} {l : Lane}
  {r : StubRequest} {rv : ρ}

theorem Attended.openKey_ident (h : Attended results ident lanes arrived) {k : ℕ × ℕ}
    (hk : lanes.openKey l = some k) : k = ident l := by
  rw [h.openKey] at hk
  obtain ⟨r, hr, rfl⟩ := exists_key_of_openAfter hk
  obtain ⟨a, ha, rfl⟩ := List.mem_map.mp hr
  obtain ⟨ha, hlane⟩ := List.mem_filter.mp ha
  rw [h.key a ha, of_decide_eq_true hlane]

theorem Attended.allowed (h : Attended results ident lanes arrived)
    (hr : Prints ident l (requestsOf arrived l) r) : lanes.allowed ⟨l, r, rv⟩ = true := by
  have hfollows := hr.follows
  rw [Follows, ← h.openKey] at hfollows
  unfold Lanes.allowed
  split_ifs at hfollows ⊢ with hfn
  · exact decide_eq_true hfollows
  · exact decide_eq_true hfollows

theorem Attended.separate (h : Attended results ident lanes arrived)
    (hident : Function.Injective ident) (hlive : lanes.service.deferred_fns ≠ .freed)
    (hr : Prints ident l (requestsOf arrived l) r) : Separate lanes ⟨l, r, rv⟩ := by
  refine ⟨hlive, fun _ l' hne hopen => hne (hident ?_)⟩
  rw [← h.openKey_ident hopen]
  exact hr.key

/-- What the service does with a request that a lane may send. -/
theorem Attended.serve (h : Attended results ident lanes arrived)
    (hident : Function.Injective ident) (hlive : lanes.service.deferred_fns ≠ .freed)
    (hr : Prints ident l (requestsOf arrived l) r) :
    ∃ service, Fortran.serve results lanes.service (lanes.arrival ⟨l, r, rv⟩) =
        some (service, .success) ∧
      Attended results ident (lanes.issued ⟨l, r, rv⟩ service)
        (arrived ++ [lanes.arrival ⟨l, r, rv⟩]) := by
  set a := lanes.arrival ⟨l, r, rv⟩ with ha
  have hrec := h.deferred hlive
  have hbounds : ∀ b ∈ arrived ++ [a], b.req.thread_num < b.req.num_threads ∧
      b.req.team_num < b.req.num_teams := by
    intro b hb
    rcases List.mem_append.mp hb with hb | hb
    · exact h.bounds b hb
    · rw [List.mem_singleton.mp hb]
      exact ⟨hr.thread, hr.team⟩
  have hserve : ∃ service, Fortran.serve results lanes.service a = some (service, .success) ∧
      (service.deferred_fns ≠ .freed → Recorded service (arrived ++ [a])) ∧
      (service.deferred_fns = .freed → Flushed service.called (arrived ++ [a])) := by
    by_cases hclose : Closes (arrived ++ [a])
    · obtain ⟨service, hs, hfreed, hflushed⟩ := hrec.flushes hclose hbounds
      exact ⟨service, hs, fun hne => absurd hfreed hne, fun _ => hflushed⟩
    · have hfull := hrec.record a
      exact ⟨_, hrec.serve hclose, fun _ => hfull, fun hfreed => absurd hfreed hfull.not_freed⟩
  obtain ⟨service, hs, hdeferred, hflushed⟩ := hserve
  refine ⟨service, hs, fun l' => ?_, fun b hb => ?_, hbounds, ?_, hdeferred, hflushed⟩
  · rw [requestsOf_concat]
    by_cases hl : l = l'
    · subst hl
      simp [Lanes.issued, ha, Lanes.arrival]
    · have hl' : l' ≠ l := Ne.symm hl
      simp [Lanes.issued, ha, Lanes.arrival, hl, hl', h.openKey]
  · rcases List.mem_append.mp hb with hb | hb
    · exact h.key b hb
    · rw [List.mem_singleton.mp hb]
      exact hr.key
  · apply h.run.tail (h.separate hident hlive hr)
    rw [issueStep, if_pos (h.allowed hr), ← ha, hs]
    rfl

end Serve

end Service

variable {cfg : Config} {raw : Buffer}

abbrev LaneId (cfg : Config) := Fin cfg.waves × Fin 64

/-- A lane of a packet, whose `payload[0]` gets the return value. -/
abbrev SlotPtr := ℕ × ℕ

/-- The slot that the consumer hands to `execute_service`. -/
def slotPtr (s : Hostexec.State cfg) : SlotPtr :=
  match s.consumer.pc with
  | .lane wi => (s.buf.index s.consumer.iter, wi)
  | _ => (s.buf.index s.consumer.iter, 0)

/-- The protocol over the heap of the host, the message buffers and the Fortran service. -/
structure Device (cfg : Config) where
  hosted : Hosted cfg HostHeap
  /-- The request in a message buffer. The lane that stored it is history. -/
  messages : Word → Option (LaneId cfg × StubRequest)
  lanes : Lanes (LaneId cfg) SlotPtr
  /-- History: what each lane has sent. -/
  sent : LaneId cfg → List StubRequest
  /-- History: what `fortran_rt_service` was called with. -/
  arrived : List (Arrival (LaneId cfg × ℕ) SlotPtr)

def Device.init (cfg : Config) (raw : Buffer) : Device cfg :=
  ⟨Hosted.init cfg raw .init, fun _ => none, Lanes.init, fun _ => [], []⟩

inductive DeviceAction (cfg : Config)
  /-- A lane stores a request into the buffer that it got. -/
  | store (w : Fin cfg.waves) (lane : Fin 64) (r : StubRequest)
  | invoke (w : Fin cfg.waves) (req : Hostexec.Request)
  | wave (w : Fin cfg.waves)
  | host

namespace Device

variable (x : Device cfg)

def store (w : Fin cfg.waves) (lane : Fin 64) (r : StubRequest) : Device cfg :=
  { x with
    messages := Function.update x.messages ((x.hosted.protocol.waves w).retval lane 1)
      (some ((w, lane), r)) }

def sentWith (w : Fin cfg.waves) (req : Hostexec.Request) (l : LaneId cfg) : List StubRequest :=
  if l.1 = w ∧ req.service_id = HOSTEXEC_SID_FORTRT ∧ laneActive req.activemask l.2 then
    x.sent l ++ ((x.messages (req.args l.2 1)).map (·.2)).toList
  else x.sent l

def take (l : LaneId cfg) (r : StubRequest) (service : State (LaneId cfg × ℕ) SlotPtr) :
    Device cfg :=
  { x with
    lanes := x.lanes.issued ⟨l, r, slotPtr x.hosted.protocol⟩ service
    arrived := x.arrived ++ [x.lanes.arrival ⟨l, r, slotPtr x.hosted.protocol⟩] }

/-- `fortran_rt_service` on the request in a message buffer. -/
def serve (results : ℕ → Word) (call : ServiceCall) : Option (Device cfg) :=
  match x.messages (call.args 1) with
  | some (l, r) =>
    (Fortran.serve results x.lanes.service
      (x.lanes.arrival ⟨l, r, slotPtr x.hosted.protocol⟩)).map fun out => x.take l r out.1
  | none => none

/-- What a step of the consumer does to the Fortran service. -/
def host (results : ℕ → Word) : Option (Device cfg) :=
  match x.hosted.protocol.serviceCall with
  | some call => if call.service_id = HOSTEXEC_SID_FORTRT then x.serve results call else some x
  | none => some x

/-- The flush has run. -/
def flushed : Bool :=
  match x.lanes.service.deferred_fns with
  | .freed => true
  | _ => false

end Device

/-- A step before the flush, or the step of the flush. -/
def deviceStep (obj : HostObject HostHeap) (results : ℕ → Word) (x : Device cfg)
    (a : DeviceAction cfg) : Option (Device cfg) :=
  if x.flushed then none
  else match a with
    | .store w lane r =>
      if Filling x.hosted.protocol w ∧
          laneActive (x.hosted.protocol.waves w).req.activemask lane then some (x.store w lane r)
      else none
    | .invoke w req => (hostedStep obj x.hosted (.invoke w req)).map fun y =>
        { x with hosted := y, sent := x.sentWith w req }
    | .wave w => (hostedStep obj x.hosted (.wave w)).map fun y => { x with hosted := y }
    | .host => (hostedStep obj x.hosted .host).bind fun y =>
        (x.host results).map fun x' => { x' with hosted := y }

/-- The successors of a step. -/
inductive DeviceCase (obj : HostObject HostHeap) (results : ℕ → Word) (x : Device cfg) :
    DeviceAction cfg → Device cfg → Prop
  | store (w : Fin cfg.waves) (lane : Fin 64) (r : StubRequest)
      (hfill : Filling x.hosted.protocol w)
      (hlane : laneActive (x.hosted.protocol.waves w).req.activemask lane) :
      DeviceCase obj results x (.store w lane r) (x.store w lane r)
  | invoke (w : Fin cfg.waves) (req : Hostexec.Request) {y : Hosted cfg HostHeap}
      (hy : hostedStep obj x.hosted (.invoke w req) = some y) :
      DeviceCase obj results x (.invoke w req) { x with hosted := y, sent := x.sentWith w req }
  | wave (w : Fin cfg.waves) {y : Hosted cfg HostHeap}
      (hy : hostedStep obj x.hosted (.wave w) = some y) :
      DeviceCase obj results x (.wave w) { x with hosted := y }
  | serve {y : Hosted cfg HostHeap} {x' : Device cfg} {call : ServiceCall}
      (hcall : x.hosted.protocol.serviceCall = some call)
      (hservice : call.service_id = HOSTEXEC_SID_FORTRT) (hserve : x.serve results call = some x')
      (hy : hostedStep obj x.hosted .host = some y) :
      DeviceCase obj results x .host { x' with hosted := y }
  | host {y : Hosted cfg HostHeap}
      (hcall : ∀ call, x.hosted.protocol.serviceCall = some call →
        call.service_id ≠ HOSTEXEC_SID_FORTRT)
      (hy : hostedStep obj x.hosted .host = some y) :
      DeviceCase obj results x .host { x with hosted := y }

theorem device_cases {obj : HostObject HostHeap} {results : ℕ → Word} {x x' : Device cfg}
    {a : DeviceAction cfg} (h : deviceStep obj results x a = some x') :
    x.lanes.service.deferred_fns ≠ .freed ∧ DeviceCase obj results x a x' := by
  unfold deviceStep at h
  split_ifs at h with hflushed
  refine ⟨fun hfreed => hflushed (by simp [Device.flushed, hfreed]), ?_⟩
  cases a with
  | store w lane r =>
    dsimp only at h
    split_ifs at h with hok
    obtain rfl := Option.some.inj h
    exact .store w lane r hok.1 hok.2
  | invoke w req =>
    obtain ⟨y, hy, rfl⟩ := Option.map_eq_some_iff.mp h
    exact .invoke w req hy
  | wave w =>
    obtain ⟨y, hy, rfl⟩ := Option.map_eq_some_iff.mp h
    exact .wave w hy
  | host =>
    obtain ⟨y, hy, h⟩ := Option.bind_eq_some_iff.mp h
    obtain ⟨x₁, hx₁, rfl⟩ := Option.map_eq_some_iff.mp h
    unfold Device.host at hx₁
    split at hx₁
    · rename_i call hcall
      split_ifs at hx₁ with hservice
      · exact .serve hcall hservice hx₁ hy
      · obtain rfl := Option.some.inj hx₁
        refine .host (fun call' hcall' => ?_) hy
        obtain rfl := Option.some.inj (hcall.symm.trans hcall')
        exact hservice
    · rename_i hcall
      obtain rfl := Option.some.inj hx₁
      exact .host (fun call hcall' => by simp [hcall] at hcall') hy

/-- The lane has sent a request that the service has not read. -/
def Awaits (s : Hostexec.State cfg) (l : LaneId cfg) : Prop :=
  (s.waves l.1).req.service_id = HOSTEXEC_SID_FORTRT ∧
    Holds s l.1 l.2 ((s.waves l.1).req.args l.2 1)

theorem fortrt_message : HOSTEXEC_SID_FORTRT ∈ messageServices := by decide

theorem fortrt_ne_malloc : HOSTEXEC_SID_FORTRT ≠ HOSTEXEC_SID_HOST_MALLOC := by decide

section Awaits

variable {s s' : Hostexec.State cfg} {l : LaneId cfg} {w : Fin cfg.waves} {lane : Fin 64}
  {req : Hostexec.Request} {exec : Service} {call : ServiceCall} {out : Slot}

theorem awaits_congr (hreq : (s'.waves l.1).req = (s.waves l.1).req)
    (hholds : ∀ p, Holds s' l.1 l.2 p ↔ Holds s l.1 l.2 p) : Awaits s' l ↔ Awaits s l := by
  rw [Awaits, Awaits, hreq, hholds]

theorem not_awaits_of_idle (h : (s.waves l.1).pc = .idle) : ¬ Awaits s l := by
  rintro ⟨hservice, hholds⟩
  obtain ⟨⟨-, hmalloc⟩, -⟩ := hholds.of_idle h
  exact fortrt_ne_malloc (hservice.symm.trans hmalloc)

theorem awaits_wave (hw : WaveCase s w s') (hm' : Matched exec s') : Awaits s' l ↔ Awaits s l :=
  awaits_congr (by rw [hw.sameCalls.req]) fun _ => hw.holds_iff hm'

theorem awaits_quiet (hs : QuietHost s s') : Awaits s' l ↔ Awaits s l :=
  awaits_congr (by rw [hs.waves]) fun _ => hs.holds_iff

theorem awaits_afterInvoke_of_ne (hl : l.1 ≠ w) : Awaits (afterInvoke s w req) l ↔ Awaits s l :=
  awaits_congr (by simp [Function.update_of_ne hl]) fun _ => holds_afterInvoke_of_ne hl

theorem awaits_afterInvoke_self (hm : Matched exec s) : Awaits (afterInvoke s w req) (w, lane) ↔
    req.service_id = HOSTEXEC_SID_FORTRT ∧ laneActive req.activemask lane := by
  have hreq : ((afterInvoke s w req).waves w).req = req := by simp
  rw [Awaits, hreq, holds_afterInvoke_self hm.runsOf_calls]
  apply and_congr_right
  intro hservice
  rw [hservice, releases_of_message fortrt_message]
  constructor
  · rintro ⟨k, -, hlane, -⟩
    exact hlane
  · intro hlane
    exact ⟨1, rfl, hlane, rfl⟩

theorem awaits_of_serves (h : ServesLane s s' call out w lane)
    (hservice : call.service_id = HOSTEXEC_SID_FORTRT) : Awaits s (w, lane) := by
  rw [h.service] at hservice
  refine ⟨hservice, .sending 1 ?_ h.active h.mask h.new rfl⟩
  rw [hservice, releases_of_message fortrt_message]

theorem awaits_serve (h : ServesLane s s' call out w lane) (hm : Matched exec s)
    (hservice : call.service_id = HOSTEXEC_SID_FORTRT) :
    Awaits s' l ↔ Awaits s l ∧ l ≠ (w, lane) := by
  obtain ⟨v, lane'⟩ := l
  by_cases hv : v = w
  · subst hv
    have hrel : releases call.service_id = some 1 := by
      rw [hservice, releases_of_message fortrt_message]
    simp only [Awaits, h.waves, h.holds_release hrel, ne_eq, Prod.mk.injEq, true_and, and_assoc]
  · have hne : (v, lane') ≠ (w, lane) := fun he => hv (Prod.mk.inj he).1
    rw [awaits_congr (by rw [h.waves]) fun _ => h.holds_of_ne hm hv]
    exact (and_iff_left hne).symm

theorem awaits_serve_other (h : ServesLane s s' call out w lane) (hm : Matched exec s)
    (hservice : call.service_id ≠ HOSTEXEC_SID_FORTRT) : Awaits s' l ↔ Awaits s l := by
  by_cases hv : l.1 = w
  · have hnot : (s.waves l.1).req.service_id ≠ HOSTEXEC_SID_FORTRT := by
      rw [hv, ← h.service]
      exact hservice
    refine iff_of_false (fun ha => hnot ?_) fun ha => hnot ha.1
    rw [← ha.1, h.waves]
  · exact awaits_congr (by rw [h.waves]) fun _ => h.holds_of_ne hm hv

end Awaits

variable {ident : LaneId cfg → ℕ × ℕ} {find : HostHeap → Word}
  {answer : HostHeap → ServiceCall → Slot} {results : ℕ → Word} {x x' : Device cfg}

/-- The calls are disciplined, and a lane sends the request that it stored: the next one of its
statements, with its team and thread. -/
def DeviceOk (ident : LaneId cfg → ℕ × ℕ) (find : HostHeap → Word) (x : Device cfg) :
    DeviceAction cfg → Prop
  | .store .. => True
  | .invoke w req => NoTagWrap x.hosted.protocol ∧ Disciplined find x.hosted (.invoke w req) ∧
    (req.service_id = HOSTEXEC_SID_FORTRT → ∀ lane : Fin 64, laneActive req.activemask lane →
      ∃ r, x.messages (req.args lane 1) = some ((w, lane), r) ∧
        Prints ident (w, lane) (x.sent (w, lane)) r)
  | .wave w => NoTagWrap x.hosted.protocol ∧ Disciplined find x.hosted (.wave w)
  | .host => NoTagWrap x.hosted.protocol ∧ Disciplined find x.hosted .host

/-- Reachable states of the device up to the flush. -/
def DeviceReaches (ident : LaneId cfg → ℕ × ℕ) (find : HostHeap → Word)
    (answer : HostHeap → ServiceCall → Slot) (results : ℕ → Word) (raw : Buffer)
    (x : Device cfg) : Prop :=
  Reachable (deviceStep (heapObject find answer) results) (DeviceOk ident find)
    (Device.init cfg raw) x

theorem DeviceReaches.disciplined (h : DeviceReaches ident find answer results raw x) :
    ReachesDisciplined find answer raw x.hosted := by
  induction h with
  | refl => exact .refl
  | tail _ hok hs ih =>
    cases (device_cases hs).2 with
    | store w lane r => exact ih
    | invoke w req hy => exact ih.tail ⟨hok.1, hok.2.1⟩ hy
    | wave w hy => exact ih.tail hok hy
    | serve _ _ _ hy => exact ih.tail hok hy
    | host _ hy => exact ih.tail hok hy

/-- What each lane has sent has arrived, in its order, but for the request on its way, which
its message buffer holds. -/
structure Running (results : ℕ → Word) (ident : LaneId cfg → ℕ × ℕ) (x : Device cfg) : Prop where
  attended : Attended results ident x.lanes x.arrived
  settled : ∀ l, ¬ Awaits x.hosted.protocol l → x.sent l = requestsOf x.arrived l
  pending : ∀ l, Awaits x.hosted.protocol l → ∃ r,
    x.messages ((x.hosted.protocol.waves l.1).req.args l.2 1) = some (l, r) ∧
      x.sent l = requestsOf x.arrived l ++ [r] ∧ Prints ident l (requestsOf x.arrived l) r

theorem Running.init (cfg : Config) (raw : Buffer) (results : ℕ → Word)
    (ident : LaneId cfg → ℕ × ℕ) : Running results ident (Device.init cfg raw) where
  attended := .init results ident
  settled _ _ := rfl
  pending _ h := absurd h (not_awaits_of_idle rfl)

theorem Running.frame (h : Running results ident x) {y : Hosted cfg HostHeap}
    (hawaits : ∀ l, Awaits y.protocol l ↔ Awaits x.hosted.protocol l)
    (hreq : ∀ w, (y.protocol.waves w).req = (x.hosted.protocol.waves w).req) :
    Running results ident { x with hosted := y } where
  attended := h.attended
  settled l hl := h.settled l (mt (hawaits l).mpr hl)
  pending l hl := by
    obtain ⟨r, hmsg, hrest⟩ := h.pending l ((hawaits l).mp hl)
    exact ⟨r, by rw [hreq]; exact hmsg, hrest⟩

/-- A lane stores into its own buffer, and no request on its way is there. -/
theorem Running.store (h : Running results ident x)
    (hcust : Custody x.hosted.protocol x.hosted.host) {w : Fin cfg.waves} {lane : Fin 64}
    {r : StubRequest} (hfill : Filling x.hosted.protocol w)
    (hlane : laneActive (x.hosted.protocol.waves w).req.activemask lane) :
    Running results ident (x.store w lane r) := by
  refine ⟨h.attended, h.settled, fun l (hl : Awaits x.hosted.protocol l) => ?_⟩
  obtain ⟨r', hmsg, hrest⟩ := h.pending l hl
  refine ⟨r', ?_, hrest⟩
  have hne : (x.hosted.protocol.waves l.1).req.args l.2 1 ≠
      (x.hosted.protocol.waves w).retval lane 1 := by
    intro he
    have hheld := hl.2
    rw [he] at hheld
    obtain ⟨hw, -⟩ := hcust.inj _ _ _ _ _ hheld (.filling hfill.2 hfill.1 hlane rfl)
    exact not_awaits_of_idle (hw ▸ hfill.1) hl
  exact (Function.update_of_ne hne _ _).trans hmsg

theorem Running.invoke (h : Running results ident x) {exec : Service}
    (hm : Matched exec x.hosted.protocol) {w : Fin cfg.waves} {req : Hostexec.Request}
    {y : Hosted cfg HostHeap} (hpc : (x.hosted.protocol.waves w).pc = .idle)
    (hy : y.protocol = afterInvoke x.hosted.protocol w req)
    (hsend : req.service_id = HOSTEXEC_SID_FORTRT → ∀ lane : Fin 64,
      laneActive req.activemask lane → ∃ r, x.messages (req.args lane 1) = some ((w, lane), r) ∧
        Prints ident (w, lane) (x.sent (w, lane)) r) :
    Running results ident { x with hosted := y, sent := x.sentWith w req } := by
  refine ⟨h.attended, fun l hl => ?_, fun l hl => ?_⟩
  · obtain ⟨v, lane⟩ := l
    rw [hy] at hl
    by_cases hv : v = w
    · subst hv
      rw [awaits_afterInvoke_self hm] at hl
      have hsent : x.sentWith v req (v, lane) = x.sent (v, lane) :=
        if_neg fun hc => hl hc.2
      dsimp only
      rw [hsent]
      exact h.settled _ (not_awaits_of_idle hpc)
    · rw [awaits_afterInvoke_of_ne hv] at hl
      have hsent : x.sentWith w req (v, lane) = x.sent (v, lane) := if_neg fun hc => hv hc.1
      dsimp only
      rw [hsent]
      exact h.settled _ hl
  · obtain ⟨v, lane⟩ := l
    rw [hy] at hl
    by_cases hv : v = w
    · subst hv
      obtain ⟨hservice, hlane⟩ := (awaits_afterInvoke_self hm).mp hl
      obtain ⟨r, hmsg, hprints⟩ := hsend hservice lane hlane
      have hold := h.settled (v, lane) (not_awaits_of_idle hpc)
      have hsent : x.sentWith v req (v, lane) = x.sent (v, lane) ++ [r] := by
        rw [Device.sentWith, if_pos ⟨rfl, hservice, hlane⟩, hmsg]
        rfl
      refine ⟨r, ?_, ?_, hold ▸ hprints⟩
      · simp [hy, hmsg]
      · dsimp only
        rw [hsent, hold]
    · have hawaits := (awaits_afterInvoke_of_ne hv).mp hl
      obtain ⟨r, hmsg, hsent, hprints⟩ := h.pending (v, lane) hawaits
      have hsame : x.sentWith w req (v, lane) = x.sent (v, lane) := if_neg fun hc => hv hc.1
      refine ⟨r, ?_, ?_, hprints⟩
      · simp only [hy]
        simpa [Function.update_of_ne hv] using hmsg
      · dsimp only
        rw [hsame, hsent]

/-- The service finds the request of the lane that it serves, and takes it. -/
theorem Running.takes (h : Running results ident x) (hident : Function.Injective ident)
    (hlive : x.lanes.service.deferred_fns ≠ .freed) {s' : Hostexec.State cfg} {call : ServiceCall}
    {out : Slot} {w : Fin cfg.waves} {lane : Fin 64}
    (hserves : ServesLane x.hosted.protocol s' call out w lane)
    (hservice : call.service_id = HOSTEXEC_SID_FORTRT) :
    ∃ r service, x.serve results call = some (x.take (w, lane) r service) ∧
      Attended results ident (x.take (w, lane) r service).lanes
        (x.take (w, lane) r service).arrived ∧
      x.sent (w, lane) = requestsOf x.arrived (w, lane) ++ [r] := by
  obtain ⟨r, hmsg, hsent, hprints⟩ := h.pending _ (awaits_of_serves hserves hservice)
  rw [← hserves.args] at hmsg
  obtain ⟨service, hserve, hattended⟩ : ∃ service, Fortran.serve results x.lanes.service
      (x.lanes.arrival ⟨(w, lane), r, slotPtr x.hosted.protocol⟩) = some (service, .success) ∧
      Attended results ident (x.take (w, lane) r service).lanes
        (x.take (w, lane) r service).arrived := h.attended.serve hident hlive hprints
  refine ⟨r, service, ?_, hattended, hsent⟩
  simp only [Device.serve, hmsg, hserve, Option.map_some]

theorem Device.requestsOf_take (x : Device cfg) (l l' : LaneId cfg) (r : StubRequest)
    (service : State (LaneId cfg × ℕ) SlotPtr) : requestsOf (x.take l r service).arrived l' =
      if l = l' then requestsOf x.arrived l' ++ [r] else requestsOf x.arrived l' :=
  requestsOf_concat _ _ _

theorem Running.serve (h : Running results ident x) (hident : Function.Injective ident)
    (hlive : x.lanes.service.deferred_fns ≠ .freed) {exec : Service}
    (hm : Matched exec x.hosted.protocol) {y : Hosted cfg HostHeap} {call : ServiceCall}
    {out : Slot} {w : Fin cfg.waves} {lane : Fin 64}
    (hserves : ServesLane x.hosted.protocol y.protocol call out w lane)
    (hservice : call.service_id = HOSTEXEC_SID_FORTRT) {x₁ : Device cfg}
    (hx₁ : x.serve results call = some x₁) : Running results ident { x₁ with hosted := y } := by
  obtain ⟨r, service, hserve, hattended, hsent⟩ := h.takes hident hlive hserves hservice
  obtain rfl := Option.some.inj (hx₁.symm.trans hserve)
  have hawaits := fun l => awaits_serve (l := l) hserves hm hservice
  refine ⟨hattended, fun l hl => ?_, fun l hl => ?_⟩
  · dsimp only
    rw [x.requestsOf_take]
    split_ifs with hl'
    · subst hl'
      exact hsent
    · exact h.settled l fun hawait => hl ((hawaits l).mpr ⟨hawait, Ne.symm hl'⟩)
  · obtain ⟨hawait, hl'⟩ := (hawaits l).mp hl
    dsimp only
    rw [x.requestsOf_take, if_neg (Ne.symm hl'), hserves.waves]
    exact h.pending l hawait

theorem serves_of_hostStep {exec : Service} {L : Lists} {y : Hosted cfg HostHeap}
    {call : ServiceCall} (hm : Matched exec x.hosted.protocol) (hinv : Inv x.hosted.protocol L)
    (hm' : Matched exec y.protocol) (hcall : x.hosted.protocol.serviceCall = some call)
    (hy : hostedStep (heapObject find answer) x.hosted .host = some y) :
    ∃ out w lane, ServesLane x.hosted.protocol y.protocol call out w lane := by
  cases hosted_cases hy with
  | execute hcall' hs =>
    obtain rfl := Option.some.inj (hcall.symm.trans hcall')
    exact ⟨_, (hostStep_cases hs).serves hcall hm hinv hm'⟩
  | quiet hnone => simp [hcall] at hnone

theorem DeviceReaches.running (hident : Function.Injective ident)
    (h : DeviceReaches ident find answer results raw x) : Running results ident x := by
  apply h.invariant₂ (P := fun x => ReachesDisciplined find answer raw x.hosted)
    (Q := fun x => Running results ident x) (fun _ hr => DeviceReaches.disciplined hr)
    (.init cfg raw results ident)
  intro x a x' hdisc hrun hok hs
  have hreach := hdisc.hosted.protocol
  have hm := hreach.matched
  obtain ⟨L, hinv⟩ := hreach.reaches.inv
  obtain ⟨hlive, hcase⟩ := device_cases hs
  have hmatched : ∀ {b y}, NoTagWrap x.hosted.protocol → Disciplined find x.hosted b →
      hostedStep (heapObject find answer) x.hosted b = some y → Matched anyService y.protocol :=
    fun hwrap hd hy =>
      (ReachesDisciplined.hosted (hdisc.tail ⟨hwrap, hd⟩ hy)).protocol.matched
  cases hcase with
  | store w lane r hfill hlane => exact hrun.store hdisc.custody hfill hlane
  | invoke w req hy =>
    cases hosted_cases hy with
    | invoke _ _ hp =>
      cases step_cases hp with
      | invoke _ _ hpc => exact hrun.invoke hm hpc rfl hok.2.2
  | wave w hy =>
    have hm' := hmatched hok.1 hok.2 hy
    cases hosted_cases hy with
    | wave _ hp =>
      have hw := waveStep_cases hp
      exact hrun.frame (fun _ => awaits_wave hw hm') hw.sameCalls.req
  | serve hcall hservice hserve hy =>
    obtain ⟨out, w, lane, hserves⟩ :=
      serves_of_hostStep hm hinv (hmatched hok.1 hok.2 hy) hcall hy
    exact hrun.serve hident hlive hm hserves hservice hserve
  | host hnot hy =>
    have hm' := hmatched hok.1 hok.2 hy
    cases hcall : x.hosted.protocol.serviceCall with
    | some call =>
      obtain ⟨out, w, lane, hserves⟩ := serves_of_hostStep hm hinv hm' hcall hy
      exact hrun.frame (fun _ => awaits_serve_other hserves hm (hnot call hcall))
        fun _ => by rw [hserves.waves]
    | none =>
      cases hosted_cases hy with
      | execute hsome => simp [hcall] at hsome
      | quiet _ hp =>
        have hquiet := (hostStep_cases hp).quiet hcall
        exact hrun.frame (fun _ => awaits_quiet hquiet) fun _ => by rw [hquiet.waves]

instance (rs : List StubRequest) (r : StubRequest) : Decidable (Follows rs r) :=
  inferInstanceAs (Decidable (_ = _))

end Aomp.Fortran
