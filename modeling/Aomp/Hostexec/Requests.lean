import Aomp.Hostexec.PacketOwnership

/-!
# What is known of a call while it is answered

A call is followed by its number. `Filled` says what the packet of a call holds when the
consumer has served its first lanes, and `Answered` what is left once the call has
completed. Both speak of the executions and reports of that call alone, so a step frames
them by leaving one packet and the history of one call unchanged.
-/
namespace Aomp.Hostexec

open Foundations

variable {cfg : Config} {s s' : State cfg} {t t' : Wave} {w : Fin cfg.waves}

/-- The active lanes among the first `n`. -/
def lanesBelow (activemask : Word) (n : ℕ) : List (Fin 64) :=
  ((List.finRange 64).take n).filter fun l => laneActive activemask l

/-- The active lanes, in the order in which the consumer serves them. -/
def activeLanes (activemask : Word) : List (Fin 64) :=
  (List.finRange 64).filter fun l => laneActive activemask l

@[simp] theorem lanesBelow_zero (m : Word) : lanesBelow m 0 = [] := by simp [lanesBelow]

theorem lanesBelow_of_le (m : Word) {n : ℕ} (hn : 64 ≤ n) : lanesBelow m n = activeLanes m := by
  rw [lanesBelow, activeLanes, List.take_of_length_le (by simpa using hn)]

theorem lanesBelow_succ (m : Word) (lane : Fin 64) :
    lanesBelow m (lane + 1) =
      lanesBelow m lane ++ if laneActive m lane then [lane] else [] := by
  have hget : (List.finRange 64)[lane.val]? = some lane := by simp
  rw [lanesBelow, List.take_add_one, hget, List.filter_append]
  simp [lanesBelow, List.filter_singleton]

theorem mem_lanesBelow {m : Word} {n : ℕ} {l : Fin 64} :
    l ∈ lanesBelow m n ↔ l.val < n ∧ laneActive m l := by
  have htake : l ∈ (List.finRange 64).take n ↔ l.val < n := by
    simp only [List.mem_take_iff_getElem, List.getElem_finRange]
    constructor
    · rintro ⟨k, hk, he⟩
      have := congrArg Fin.val he
      simp at this hk
      omega
    · intro h
      exact ⟨l.val, by simp [h], by ext; simp⟩
  rw [lanesBelow, List.mem_filter, htake]

theorem laneActive_eq_getLsbD (activemask : Word) (wi : ℕ) (h : wi < 64) :
    laneActive activemask wi = activemask.getLsbD wi := by
  rw [laneActive, ← BitVec.twoPow_eq, BitVec.and_twoPow]
  cases activemask.getLsbD wi with
  | false => simp
  | true =>
    have hne : BitVec.twoPow 64 wi ≠ 0#64 := by
      intro hzero
      have hbit := congrArg (fun w => w.getLsbD wi) hzero
      simp [h] at hbit
    simpa using hne

theorem activeLanes_ne_nil {activemask : Word} (hactive : activemask ≠ 0) :
    activeLanes activemask ≠ [] := by
  intro hnil
  apply hactive
  apply BitVec.eq_of_getLsbD_eq
  intro i hi
  have hnot : (⟨i, hi⟩ : Fin 64) ∉ activeLanes activemask := by simp [hnil]
  rw [activeLanes, List.mem_filter, not_and] at hnot
  have hbit := hnot (List.mem_finRange _)
  rw [laneActive_eq_getLsbD _ _ hi] at hbit
  simpa using hbit

/-- The run of `execute_service` serves a lane of `req`. -/
structure Execution.OfRequest (dev : BitVec 32) (req : Request) (e : Execution) : Prop where
  service_id : e.service_id = req.service_id
  device_id : e.device_id = dev
  active : laneActive req.activemask e.lane
  args : e.args = req.args e.lane

/-- The run of `handler_SERVICE_SANITIZER` reports `req`. -/
structure Report.OfRequest (dev : BitVec 32) (req : Request) (r : Report) : Prop where
  activemask : r.activemask = req.activemask
  device_id : r.device_id = dev
  payload : ∀ l : Fin 64, laneActive req.activemask l → r.payload l = req.args l

/-- `process_packets` hands the call to `handler_SERVICE_SANITIZER`. -/
abbrev Request.Sanitizes (req : Request) : Prop := req.service_id = HOSTEXEC_SID_SANITIZER

namespace State

/-- The runs of `execute_service` for one call, oldest first. -/
def runsOf (s : State cfg) (call : ℕ) : List Execution := s.log.filter (·.call = call)

def reportsOf (s : State cfg) (call : ℕ) : List Report := s.reports.filter (·.call = call)

end State

/-- The answer of a completed call. -/
structure Answered (dev : BitVec 32) (c : Completed) (runs : List Execution)
    (reports : List Report) : Prop where
  executed : ¬ c.req.Sanitizes → runs.map (·.lane) = activeLanes c.req.activemask ∧
    (∀ e ∈ runs, e.OfRequest dev c.req ∧ e.result = c.retval e.lane) ∧ reports = []
  sanitized : c.req.Sanitizes → runs = [] ∧ (∃ r, reports = [r] ∧ r.OfRequest dev c.req) ∧
    ∀ l : Fin 64, laneActive c.req.activemask l → c.retval l = c.req.args l

namespace Pc

def unfilled : Pc → Bool
  | .pop _ | .fillHeader => true
  | _ => false

def filled : Pc → Bool
  | .idle | .pop _ | .fillHeader => false
  | _ => true

def filledWords : Pc → ℕ
  | .fillWord j => j
  | _ => 8

def readWords : Pc → ℕ
  | .read j => j
  | .push .free _ => 8
  | _ => 0

theorem owns_of_filled {pc : Pc} (h : pc.filled) : pc.owns := by
  cases pc <;> first | rfl | simp [filled] at h

theorem filled_of_posted {pc : Pc} (h : pc.posted) : pc.filled := by
  cases pc <;> first | rfl | simp [posted] at h

theorem filledWords_of_posted {pc : Pc} (h : pc.posted) : pc.filledWords = 8 := by
  cases pc <;> first | rfl | simp [posted] at h

theorem readWords_of_not_released {pc : Pc} (h : pc.released = false) : pc.readWords = 0 := by
  cases pc with
  | read j => simp [released] at h
  | push st p => cases st with
    | ready => rfl
    | free => simp [released] at h
  | _ => rfl

end Pc

/-- How many lanes of the packet it answers the consumer is done with. -/
def HostPc.lanes : HostPc → ℕ
  | .lane wi => wi
  | .clear => 64
  | _ => 0

/-- How many lanes of packet `i` are served since its header was filled. -/
def State.served (s : State cfg) (i : ℕ) : ℕ :=
  if (s.consumer.pc ≠ .idle ∧ s.consumer.pc ≠ .loadNext) ∧ cfg.index s.consumer.iter = i then
    s.consumer.pc.lanes
  else if readyFlag s.buf.headers i = 0#32 then 64 else 0

/-- A filled packet of which the consumer is done with the first `n` lanes. -/
structure Filled (dev : BitVec 32) (t : Wave) (header : Header) (payload : Payload) (call n : ℕ)
    (runs : List Execution) (reports : List Report) : Prop where
  service : header.service = t.req.service_id
  activemask : header.activemask = t.req.activemask
  call : call = t.call
  lanes : runs.map (·.lane) = if t.req.Sanitizes then [] else lanesBelow t.req.activemask n
  run : ∀ e ∈ runs, e.OfRequest dev t.req ∧ e.result = payload e.lane
  args : ∀ l : Fin 64, laneActive t.req.activemask l → t.req.Sanitizes ∨ n ≤ l →
    ∀ k : Fin 8, k < t.pc.filledWords → payload l k = t.req.args l k
  reports : if t.req.Sanitizes ∧ n = 64 then ∃ r, reports = [r] ∧ r.OfRequest dev t.req
    else reports = []
  retval : ∀ l : Fin 64, laneActive t.req.activemask l →
    ∀ k : Fin 8, k < t.pc.readWords → t.retval l k = payload l k

/-- What is known of the call of a wave. -/
structure WaveData (s : State cfg) (t : Wave) : Prop where
  unfilled : t.pc.unfilled → s.runsOf t.call = [] ∧ s.reportsOf t.call = []
  filled : t.pc.filled → Filled cfg.device_id t (s.buf.headers (cfg.index t.packet_ptr))
    (s.buf.payloads (cfg.index t.packet_ptr)) (s.callOf (cfg.index t.packet_ptr))
    (s.served (cfg.index t.packet_ptr)) (s.runsOf t.call) (s.reportsOf t.call)

/-- What the consumer has read of the header of the packet it answers. -/
def ConsumerData (s : State cfg) : Prop :=
  let header := s.buf.headers (cfg.index s.consumer.iter)
  match s.consumer.pc with
  | .loadService => s.consumer.activemask = header.activemask
  | .lane wi => wi ≤ 64 ∧ s.consumer.activemask = header.activemask ∧
      s.consumer.service_id = header.service ∧ header.service ≠ HOSTEXEC_SID_SANITIZER
  | .sanitize => s.consumer.activemask = header.activemask ∧
      header.service = HOSTEXEC_SID_SANITIZER
  | _ => True

/-- Calls are numbered apart. -/
structure Numbered (calls : ℕ) (waves : Fin cfg.waves → Wave) (completed : List Completed) :
    Prop where
  lt : ∀ w, (waves w).pc ≠ .idle → (waves w).call < calls
  inj : ∀ v w, (waves v).pc ≠ .idle → (waves w).pc ≠ .idle → (waves v).call = (waves w).call → v = w
  completed_lt : ∀ c ∈ completed, c.call < calls
  completed_ne : ∀ c ∈ completed, ∀ w, (waves w).pc ≠ .idle → c.call ≠ (waves w).call
  nodup : (completed.map (·.call)).Nodup

def Started (waves : Fin cfg.waves → Wave) (completed : List Completed) (call : ℕ) : Prop :=
  (∃ c ∈ completed, c.call = call) ∨ ∃ w, (waves w).pc ≠ .idle ∧ (waves w).call = call

/-- All that is known of the data in a state. -/
structure Matched (exec : Service) (s : State cfg) : Prop where
  device : s.buf.device_id = cfg.device_id
  wave : ∀ w, WaveData s (s.waves w)
  consumer : ConsumerData s
  numbered : Numbered s.calls s.waves s.completed
  log : ∀ e ∈ s.log, Started s.waves s.completed e.call ∧
    exec e.service_id e.device_id e.args e.result
  reports : ∀ r ∈ s.reports, Started s.waves s.completed r.call
  answered : ∀ c ∈ s.completed, Answered cfg.device_id c (s.runsOf c.call) (s.reportsOf c.call)

/-- The step leaves what `Filled` reads of packet `i`. -/
structure SamePacket (s s' : State cfg) (i : ℕ) : Prop where
  service : (s'.buf.headers i).service = (s.buf.headers i).service
  activemask : (s'.buf.headers i).activemask = (s.buf.headers i).activemask
  payload : s'.buf.payloads i = s.buf.payloads i
  callOf : s'.callOf i = s.callOf i
  served : s'.served i = s.served i

/-- A packet the consumer is not answering is served when READY is cleared. -/
theorem served_of_ne {i : ℕ} (hi : cfg.index s.consumer.iter ≠ i) :
    s.served i = if readyFlag s.buf.headers i = 0#32 then 64 else 0 :=
  if_neg fun h => hi h.2

theorem served_of_idle {i : ℕ} (h : s.consumer.pc = .idle ∨ s.consumer.pc = .loadNext) :
    s.served i = if readyFlag s.buf.headers i = 0#32 then 64 else 0 := by
  apply if_neg
  intro hc
  rcases h with h | h
  · exact hc.1.1 h
  · exact hc.1.2 h

theorem served_of_answering {i : ℕ}
    (h : s.consumer.pc ≠ .idle ∧ s.consumer.pc ≠ .loadNext) (hi : cfg.index s.consumer.iter = i) :
    s.served i = s.consumer.pc.lanes :=
  if_pos ⟨h, hi⟩

/-- Lanes are only served by steps of the consumer. -/
theorem served_congr {i : ℕ} (hc : s'.consumer = s.consumer)
    (hflag : readyFlag s'.buf.headers i = readyFlag s.buf.headers i) : s'.served i = s.served i := by
  rw [State.served, State.served, hc, hflag]

/-- The call of a wave goes on with the same packet, at most as many words filled and at
most as many words read. -/
theorem Filled.move {dev : BitVec 32} {header header' : Header} {payload : Payload} {call n : ℕ}
    {runs : List Execution} {reports : List Report}
    (h : Filled dev t header payload call n runs reports) (hreq : t'.req = t.req)
    (hcall : t'.call = t.call) (hretval : t'.retval = t.retval)
    (hfill : t'.pc.filledWords ≤ t.pc.filledWords) (hread : t'.pc.readWords ≤ t.pc.readWords)
    (hservice : header'.service = header.service)
    (hmask : header'.activemask = header.activemask) :
    Filled dev t' header' payload call n runs reports where
  service := by rw [hservice, hreq, h.service]
  activemask := by rw [hmask, hreq, h.activemask]
  call := by rw [hcall, h.call]
  lanes := by rw [hreq, h.lanes]
  run := by rw [hreq]; exact h.run
  args := by
    rw [hreq]
    exact fun l hl hn k hk => h.args l hl hn k (hk.trans_le hfill)
  reports := by rw [hreq]; exact h.reports
  retval := by
    rw [hreq, hretval]
    exact fun l hl k hk => h.retval l hl k (hk.trans_le hread)

/-- A wave whose packet and history a step leaves alone keeps its data. -/
theorem WaveData.frame (h : WaveData s t)
    (hp : t.pc.filled → SamePacket s s' (cfg.index t.packet_ptr))
    (hruns : s'.runsOf t.call = s.runsOf t.call)
    (hreports : s'.reportsOf t.call = s.reportsOf t.call) : WaveData s' t where
  unfilled hu := by
    rw [hruns, hreports]
    exact h.unfilled hu
  filled hf := by
    have hsame := hp hf
    rw [hsame.payload, hsame.callOf, hsame.served, hruns, hreports]
    exact (h.filled hf).move rfl rfl rfl le_rfl le_rfl hsame.service hsame.activemask

theorem ConsumerData.frame (h : ConsumerData s) (hc : s'.consumer = s.consumer)
    (hservice : (s'.buf.headers (cfg.index s.consumer.iter)).service =
      (s.buf.headers (cfg.index s.consumer.iter)).service)
    (hmask : (s'.buf.headers (cfg.index s.consumer.iter)).activemask =
      (s.buf.headers (cfg.index s.consumer.iter)).activemask) : ConsumerData s' := by
  unfold ConsumerData at h ⊢
  rw [hc]
  simpa only [hservice, hmask] using h

theorem Numbered.congr {calls : ℕ} {waves waves' : Fin cfg.waves → Wave}
    {completed : List Completed} (h : Numbered calls waves completed)
    (hcall : ∀ v, (waves' v).call = (waves v).call)
    (hidle : ∀ v, (waves' v).pc ≠ .idle → (waves v).pc ≠ .idle) :
    Numbered calls waves' completed where
  lt v hv := by rw [hcall]; exact h.lt v (hidle v hv)
  inj v v' hv hv' he := h.inj v v' (hidle v hv) (hidle v' hv') (by rwa [← hcall, ← hcall])
  completed_lt := h.completed_lt
  completed_ne c hc v hv := by rw [hcall]; exact h.completed_ne c hc v (hidle v hv)
  nodup := h.nodup

theorem Started.congr {waves waves' : Fin cfg.waves → Wave} {completed : List Completed} {call : ℕ}
    (h : Started waves completed call) (hcall : ∀ v, (waves' v).call = (waves v).call)
    (hidle : ∀ v, (waves v).pc ≠ .idle → (waves' v).pc ≠ .idle) :
    Started waves' completed call := by
  rcases h with h | ⟨v, hv, he⟩
  · exact .inl h
  · exact .inr ⟨v, hidle v hv, by rwa [hcall]⟩

theorem Started.lt {calls : ℕ} {waves : Fin cfg.waves → Wave} {completed : List Completed}
    {call : ℕ} (h : Started waves completed call) (hn : Numbered calls waves completed) :
    call < calls := by
  rcases h with ⟨c, hc, rfl⟩ | ⟨v, hv, rfl⟩
  · exact hn.completed_lt c hc
  · exact hn.lt v hv

end Aomp.Hostexec
