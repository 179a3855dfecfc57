import Aomp.Hostexec.WaveData

/-!
# The steps of the consumer keep the data of the calls

The consumer serves the lanes of one packet in order, each with the arguments that the
waiting wave wrote, and clears READY last.
-/
namespace Aomp.Hostexec

open Foundations

variable {cfg : Config} {exec : Service} {s s' : State cfg} {L : Lists} {out : Slot}
  {raw : Buffer}

theorem Inv.answered_holder (h : Inv s L)
    (hpc : s.consumer.pc ≠ .idle ∧ s.consumer.pc ≠ .loadNext) :
    ∃ w, (s.waves w).pc.posted ∧
      cfg.index (s.waves w).packet_ptr = cfg.index s.consumer.iter ∧
      readyFlag s.buf.headers (cfg.index s.consumer.iter) = 1#32 := by
  have hl := h.answered_head hpc
  have hlt := h.lt _ (List.mem_append.mpr (.inr hl))
  obtain ⟨w, ho, hw⟩ := h.holding.cover _ hlt fun hf => h.not_listed_of_mem_free hf hl
  have hlisted := (h.wave w).listed ho
  rw [hw] at hlisted
  exact ⟨w, (hlisted.mp hl).1, hw, (hlisted.mp hl).2⟩

theorem Matched.ofConsumer (h : Matched exec s) (hwaves : s'.waves = s.waves)
    (hdevice : s'.buf.device_id = s.buf.device_id) (hcalls : s'.calls = s.calls)
    (hcompleted : s'.completed = s.completed) (hlog : s'.log = s.log)
    (hreports : s'.reports = s.reports) (hdata : ConsumerData s')
    (hpackets : ∀ w, (s.waves w).pc.filled → SamePacket s s' (cfg.index (s.waves w).packet_ptr)) :
    Matched exec s' := by
  have hruns : ∀ call, s'.runsOf call = s.runsOf call := fun call => by
    rw [State.runsOf, State.runsOf, hlog]
  have hreps : ∀ call, s'.reportsOf call = s.reportsOf call := fun call => by
    rw [State.reportsOf, State.reportsOf, hreports]
  refine ⟨hdevice.trans h.device, fun w => ?_, hdata, ?_, ?_, ?_, ?_⟩
  · rw [hwaves]
    exact (h.wave w).frame (hpackets w) (hruns _) (hreps _)
  · rw [hcalls, hwaves, hcompleted]
    exact h.numbered
  · rw [hlog, hwaves, hcompleted]
    exact h.log
  · rw [hreports, hwaves, hcompleted]
    exact h.reports
  · rw [hcompleted]
    intro c hc
    rw [hruns, hreps]
    exact h.answered c hc

theorem Matched.moveConsumer (h : Matched exec s) (c : Consumer)
    (hserved : ∀ i, State.served { s with consumer := c } i = s.served i)
    (hdata : ConsumerData { s with consumer := c }) : Matched exec { s with consumer := c } :=
  h.ofConsumer rfl rfl rfl rfl rfl rfl hdata fun _ _ => ⟨rfl, rfl, rfl, rfl, hserved _⟩

theorem served_consumer {c : Consumer} {i : ℕ}
    (hpc : s.consumer.pc ≠ .idle ∧ s.consumer.pc ≠ .loadNext)
    (hpc' : c.pc ≠ .idle ∧ c.pc ≠ .loadNext) (hiter : c.iter = s.consumer.iter)
    (hlanes : c.pc.lanes = s.consumer.pc.lanes) :
    State.served { s with consumer := c } i = s.served i := by
  simp only [State.served, hiter, hlanes, hpc, hpc', ne_eq, not_false_eq_true, and_self, true_and]

section Calls

variable {α : Type*} {callOf : α → ℕ} {entries : List α} {call : ℕ}
variable (h : ∀ e ∈ entries, callOf e = call)
include h

theorem filter_call_self : entries.filter (callOf · = call) = entries :=
  List.filter_eq_self.mpr fun e he => by simp [h e he]

theorem filter_call_ne {other : ℕ} (hne : other ≠ call) :
    entries.filter (callOf · = other) = [] := by
  rw [List.filter_eq_nil_iff]
  intro e he
  rw [decide_eq_true_eq, h e he]
  exact hne.symm

end Calls

/-- The consumer is done with a step of the packet that the call of `w` waits for: the
executions and reports it adds are of that call. -/
theorem Matched.ofServe (h : Matched exec s) (hinv : Inv s L) (runs : List Execution)
    (reports : List Report) {w : Fin cfg.waves} {b : Buffer} {c : Consumer}
    (hposted : (s.waves w).pc.posted)
    (hw : cfg.index (s.waves w).packet_ptr = cfg.index s.consumer.iter)
    (hpc' : c.pc ≠ .idle ∧ c.pc ≠ .loadNext) (hiter : c.iter = s.consumer.iter)
    (hb : b.headers = s.buf.headers ∧ b.device_id = s.buf.device_id ∧
      ∀ k, k ≠ cfg.index s.consumer.iter → b.payloads k = s.buf.payloads k)
    (hruns : ∀ e ∈ runs, e.call = (s.waves w).call ∧
      exec e.service_id e.device_id e.args e.result)
    (hreports : ∀ r ∈ reports, r.call = (s.waves w).call)
    (hdata : ConsumerData { s with buf := b, consumer := c })
    (ht : Filled cfg.device_id (s.waves w) (s.buf.headers (cfg.index s.consumer.iter))
      (b.payloads (cfg.index s.consumer.iter)) (s.callOf (cfg.index s.consumer.iter)) c.pc.lanes
      (s.runsOf (s.waves w).call ++ runs) (reports ++ s.reportsOf (s.waves w).call)) :
    Matched exec { s with
      buf := b, consumer := c, log := s.log ++ runs, reports := reports ++ s.reports } := by
  have hactive : (s.waves w).pc ≠ .idle := by
    intro hc
    simp [hc, Pc.posted] at hposted
  have hcalls : ∀ e ∈ runs, e.call = (s.waves w).call := fun e he => (hruns e he).1
  have hownRuns := filter_call_self hcalls
  have hownReports := filter_call_self hreports
  have hotherRuns : ∀ call, call ≠ (s.waves w).call → runs.filter (·.call = call) = [] :=
    fun _ hne => filter_call_ne hcalls hne
  have hotherReports : ∀ call, call ≠ (s.waves w).call → reports.filter (·.call = call) = [] :=
    fun _ hne => filter_call_ne hreports hne
  have hstarted : Started s.waves s.completed (s.waves w).call := .inr ⟨w, hactive, rfl⟩
  refine ⟨hb.2.1.trans h.device, fun v => ?_, hdata, h.numbered, ?_, ?_, fun a ha => ?_⟩
  · by_cases hv : v = w
    · subst hv
      refine ⟨fun hu => ?_, fun _ => ?_⟩
      · cases hp : (s.waves v).pc <;> simp [hp, Pc.unfilled, Pc.posted] at hu hposted
      · rw [hw]
        simp only [State.served, hiter, hpc', ne_eq, not_false_eq_true, and_self, if_true,
          State.runsOf, State.reportsOf, List.filter_append, hownRuns, hownReports, hb.1]
        exact ht
    · by_cases hidle : (s.waves v).pc = .idle
      · exact ⟨by simp [hidle, Pc.unfilled], by simp [hidle, Pc.filled]⟩
      · have hne : (s.waves v).call ≠ (s.waves w).call := fun he =>
          hv (h.numbered.inj v w hidle hactive he)
        refine (h.wave v).frame (fun hf => ?_) ?_ ?_
        · have hindex : cfg.index (s.waves v).packet_ptr ≠ cfg.index s.consumer.iter := fun he =>
            hv (hinv.holding.inj v w (Pc.owns_of_filled hf)
              (Pc.owns_of_filled (Pc.filled_of_posted hposted)) (he.trans hw.symm))
          refine ⟨by rw [hb.1], by rw [hb.1], hb.2.2 _ hindex, rfl, ?_⟩
          rw [served_of_ne hindex.symm, served_of_ne (by simpa [hiter] using hindex.symm)]
          exact if_congr (by simp only [readyFlag, hb.1]) rfl rfl
        · simp [State.runsOf, hotherRuns _ hne]
        · simp [State.reportsOf, hotherReports _ hne]
  · intro e he
    rcases List.mem_append.mp he with he | he
    · exact h.log e he
    · rw [(hruns e he).1]
      exact ⟨hstarted, (hruns e he).2⟩
  · intro r hr
    rcases List.mem_append.mp hr with hr | hr
    · rw [hreports r hr]
      exact hstarted
    · exact h.reports r hr
  · have hne := h.numbered.completed_ne a ha w hactive
    simpa [State.runsOf, State.reportsOf, hotherRuns _ hne, hotherReports _ hne] using
      h.answered a ha

section Lanes

variable {dev : BitVec 32} {t : Wave} {header : Header} {payload : Payload} {call : ℕ}
  {lane : Fin 64} {runs : List Execution} {reports : List Report}
variable (h : Filled dev t header payload call lane runs reports) (hreq : ¬ t.req.Sanitizes)
include h hreq

theorem Filled.skip (hlane : ¬ laneActive t.req.activemask lane) :
    Filled dev t header payload call (lane + 1) runs reports := by
  refine ⟨h.service, h.activemask, h.call, ?_, h.run, fun l hl hn k hk => ?_, ?_, h.retval⟩
  · have hlanes := h.lanes
    rw [if_neg hreq] at hlanes ⊢
    rw [hlanes]
    simp [lanesBelow_succ, hlane]
  · have hle : lane.val + 1 ≤ l.val := hn.resolve_left hreq
    exact h.args l hl (.inr (by omega)) k hk
  · have hreports := h.reports
    rw [if_neg (fun hc => hreq hc.1)] at hreports ⊢
    exact hreports

theorem Filled.execute {e : Execution} (he : e.lane = lane) (hof : e.OfRequest dev t.req)
    (hread : t.pc.readWords = 0) :
    Filled dev t header (Function.update payload lane e.result) call (lane + 1) (runs ++ [e])
      reports := by
  have hlane : laneActive t.req.activemask lane := he ▸ hof.active
  have hlanes := h.lanes
  rw [if_neg hreq] at hlanes
  refine ⟨h.service, h.activemask, h.call, ?_, fun e' he' => ?_, fun l hl hn k hk => ?_, ?_,
    fun l _ k hk => ?_⟩
  · rw [if_neg hreq, List.map_append, hlanes]
    simp [lanesBelow_succ, hlane, he]
  · rcases List.mem_append.mp he' with he' | he'
    · obtain ⟨hof', hresult⟩ := h.run e' he'
      have hlt := (mem_lanesBelow.mp (hlanes ▸ List.mem_map_of_mem he')).1
      have hne : e'.lane ≠ lane := by
        rintro hsame
        omega
      exact ⟨hof', by rw [hresult, Function.update_of_ne hne]⟩
    · rw [List.mem_singleton.mp he']
      exact ⟨hof, by rw [he, Function.update_self]⟩
  · have hle : lane.val + 1 ≤ l.val := hn.resolve_left hreq
    rw [Function.update_of_ne (by rintro rfl; omega)]
    exact h.args l hl (.inr (by omega)) k hk
  · have hreports := h.reports
    rw [if_neg (fun hc => hreq hc.1)] at hreports ⊢
    exact hreports
  · rw [hread] at hk
    exact absurd hk (Nat.not_lt_zero _)

end Lanes

theorem Matched.at_lane (h : Matched exec s) (hinv : Inv s L) {lane : Fin 64}
    (hpc : s.consumer.pc = .lane lane) :
    ∃ w, (s.waves w).pc.posted ∧
      cfg.index (s.waves w).packet_ptr = cfg.index s.consumer.iter ∧
      readyFlag s.buf.headers (cfg.index s.consumer.iter) = 1#32 ∧
      ¬ (s.waves w).req.Sanitizes ∧
      Filled cfg.device_id (s.waves w) (s.buf.headers (cfg.index s.consumer.iter))
        (s.buf.payloads (cfg.index s.consumer.iter)) (s.callOf (cfg.index s.consumer.iter)) lane
        (s.runsOf (s.waves w).call) (s.reportsOf (s.waves w).call) := by
  have hans : s.consumer.pc ≠ .idle ∧ s.consumer.pc ≠ .loadNext := by simp [hpc]
  obtain ⟨w, hposted, hw, hflag⟩ := hinv.answered_holder hans
  have hfilled := (h.wave w).filled (Pc.filled_of_posted hposted)
  have hserved : s.served (cfg.index s.consumer.iter) = lane := by
    rw [served_of_answering hans rfl, hpc]
    rfl
  have hdata := h.consumer
  simp only [ConsumerData, hpc] at hdata
  rw [hw, hserved] at hfilled
  refine ⟨w, hposted, hw, hflag, ?_, hfilled⟩
  rw [Request.Sanitizes, ← hfilled.service]
  exact hdata.2.2.2

/-- `execute_service` runs for one active lane. -/
theorem Matched.execute (h : Matched exec s) (hinv : Inv s L) (lane : Fin 64)
    (hpc : s.consumer.pc = .lane lane) (hactive : laneActive s.consumer.activemask lane)
    (hserves : Serves exec s (.host out)) :
    Matched exec { s with
      consumer := { s.consumer with pc := .lane (lane + 1) }
      buf := s.buf.setPayload s.consumer.iter
        (Function.update (s.buf.getPayload s.consumer.iter) lane out)
      log := s.log ++ [⟨s.callOf (s.buf.index s.consumer.iter), lane, s.consumer.service_id,
        s.buf.device_id, s.buf.getPayload s.consumer.iter lane, out⟩] } := by
  obtain ⟨w, hposted, hw, hflag, hreq, hfilled⟩ := h.at_lane hinv hpc
  have hidx := hinv.index_eq s.consumer.iter
  have hdata := h.consumer
  simp only [ConsumerData, hpc] at hdata
  obtain ⟨-, hmask, hservice, hsan⟩ := hdata
  have hlane : laneActive (s.waves w).req.activemask lane := by
    rw [← hfilled.activemask, ← hmask]
    exact hactive
  have hpayload : s.buf.getPayload s.consumer.iter = s.buf.payloads (cfg.index s.consumer.iter) := by
    rw [Buffer.getPayload, hidx]
  have hargs : s.buf.getPayload s.consumer.iter lane = (s.waves w).req.args lane := by
    ext1 k
    rw [hpayload]
    apply hfilled.args lane hlane (.inr le_rfl)
    rw [Pc.filledWords_of_posted hposted]
    exact k.isLt
  have hnot : (s.waves w).pc.released = false := by
    by_contra hrel
    have hzero := (hinv.wave w).released (by simpa using hrel)
    rw [hw, hflag] at hzero
    simp at hzero
  refine h.ofServe hinv _ [] hposted hw (by simp) rfl ⟨rfl, rfl, fun k hk => ?_⟩ ?_ (by simp)
    ⟨by omega, hmask, hservice, hsan⟩ ?_
  · rw [Buffer.setPayload_payloads, hidx, Function.update_of_ne hk]
  · intro e he
    rw [List.mem_singleton.mp he, hidx]
    exact ⟨hfilled.call, hserves lane hpc hactive⟩
  · rw [Buffer.setPayload_payloads, hidx, Function.update_self, hpayload, List.nil_append]
    have hof : Execution.OfRequest cfg.device_id (s.waves w).req
        ⟨s.callOf (cfg.index s.consumer.iter), lane, s.consumer.service_id, s.buf.device_id,
          s.buf.payloads (cfg.index s.consumer.iter) lane, out⟩ :=
      ⟨hservice.trans hfilled.service, h.device, hlane, hpayload ▸ hargs⟩
    exact hfilled.execute hreq rfl hof (Pc.readWords_of_not_released hnot)

theorem Matched.skip (h : Matched exec s) (hinv : Inv s L) (lane : Fin 64)
    (hpc : s.consumer.pc = .lane lane) (hactive : ¬ laneActive s.consumer.activemask lane) :
    Matched exec { s with consumer := { s.consumer with pc := .lane (lane + 1) } } := by
  obtain ⟨w, hposted, hw, -, hreq, hfilled⟩ := h.at_lane hinv hpc
  have hdata := h.consumer
  simp only [ConsumerData, hpc] at hdata
  obtain ⟨-, hmask, hservice, hsan⟩ := hdata
  have hlane : ¬ laneActive (s.waves w).req.activemask lane := by
    rw [← hfilled.activemask, ← hmask]
    exact hactive
  have hserve := h.ofServe hinv [] [] (b := s.buf)
    (c := { s.consumer with pc := .lane (lane + 1) }) hposted hw (by simp) rfl
    ⟨rfl, rfl, fun _ _ => rfl⟩ (by simp) (by simp) ⟨by omega, hmask, hservice, hsan⟩ ?_
  · simpa using hserve
  · rw [List.append_nil, List.nil_append]
    exact hfilled.skip hreq hlane

/-- `handler_SERVICE_SANITIZER` runs once for the whole packet. -/
theorem Matched.sanitize (h : Matched exec s) (hinv : Inv s L)
    (hpc : s.consumer.pc = .sanitize) :
    Matched exec { s with
      consumer := { s.consumer with pc := .clear }
      reports := ⟨s.callOf (s.buf.index s.consumer.iter), s.consumer.activemask, s.buf.device_id,
        s.buf.getPayload s.consumer.iter⟩ :: s.reports } := by
  have hans : s.consumer.pc ≠ .idle ∧ s.consumer.pc ≠ .loadNext := by simp [hpc]
  obtain ⟨w, hposted, hw, -⟩ := hinv.answered_holder hans
  have hidx := hinv.index_eq s.consumer.iter
  have hdata := h.consumer
  simp only [ConsumerData, hpc] at hdata
  obtain ⟨hmask, hsan⟩ := hdata
  have hfilled := (h.wave w).filled (Pc.filled_of_posted hposted)
  have hserved : s.served (cfg.index s.consumer.iter) = 0 := by
    rw [served_of_answering hans rfl, hpc]
    rfl
  rw [hw, hserved] at hfilled
  have hreq : (s.waves w).req.Sanitizes := by
    rw [Request.Sanitizes, ← hfilled.service]
    exact hsan
  have hserve := h.ofServe hinv [] [⟨s.callOf (s.buf.index s.consumer.iter),
      s.consumer.activemask, s.buf.device_id, s.buf.getPayload s.consumer.iter⟩] (b := s.buf)
    (c := { s.consumer with pc := .clear }) hposted hw (by simp) rfl
    ⟨rfl, rfl, fun _ _ => rfl⟩ (by simp) ?_ trivial ?_
  · simpa using hserve
  · intro r hr
    rw [List.mem_singleton.mp hr, hidx]
    exact hfilled.call
  · rw [List.append_nil]
    refine ⟨hfilled.service, hfilled.activemask, hfilled.call, ?_, hfilled.run, ?_, ?_,
      hfilled.retval⟩
    · have hlanes := hfilled.lanes
      rw [if_pos hreq] at hlanes ⊢
      exact hlanes
    · exact fun l hl _ k hk => hfilled.args l hl (.inl hreq) k hk
    · have hreports := hfilled.reports
      rw [if_neg (by simp)] at hreports
      rw [if_pos ⟨hreq, rfl⟩, hreports]
      refine ⟨_, rfl, hmask.trans hfilled.activemask, h.device, fun l hl => ?_⟩
      ext1 k
      simp only [Buffer.getPayload, hidx]
      exact hfilled.args l hl (.inl hreq) k
        (by rw [Pc.filledWords_of_posted hposted]; exact k.isLt)

theorem Matched.clear (h : Matched exec s) (hinv : Inv s L) (hpc : s.consumer.pc = .clear) :
    Matched exec { s with
      buf := s.buf.setHeader s.consumer.iter { s.buf.getHeader s.consumer.iter with
        control := resetReadyFlag (s.buf.getHeader s.consumer.iter).control }
      consumer := { s.consumer with
        iter := s.consumer.next
        pc := if s.consumer.next = 0#64 then .idle else .loadNext } } := by
  have hidx := hinv.index_eq s.consumer.iter
  have hnext : (if s.consumer.next = 0#64 then HostPc.idle else .loadNext) = .idle ∨
      (if s.consumer.next = 0#64 then HostPc.idle else .loadNext) = .loadNext := by
    split_ifs <;> simp
  refine h.ofConsumer rfl rfl rfl rfl rfl rfl (.of_idle hnext) fun v _ => ?_
  by_cases hv : cfg.index s.consumer.iter = cfg.index (s.waves v).packet_ptr
  · refine ⟨?_, ?_, rfl, rfl, ?_⟩
    · simp [← hv, hidx, Buffer.getHeader]
    · simp [← hv, hidx, Buffer.getHeader]
    · rw [served_of_idle hnext, served_of_answering (by simp [hpc]) hv, hpc, if_pos]
      · rfl
      · simp [readyFlag, ← hv, hidx]
  · have hhd : Function.update s.buf.headers (s.buf.index s.consumer.iter)
        { s.buf.getHeader s.consumer.iter with
          control := resetReadyFlag (s.buf.getHeader s.consumer.iter).control }
        (cfg.index (s.waves v).packet_ptr) = s.buf.headers (cfg.index (s.waves v).packet_ptr) := by
      rw [hidx, Function.update_of_ne (Ne.symm hv)]
    refine ⟨by simp [hhd], by simp [hhd], rfl, rfl, ?_⟩
    rw [served_of_idle hnext, served_of_ne hv]
    exact if_congr (by simp [readyFlag, hhd]) rfl rfl

theorem Matched.hostStep (h : Matched exec s) (hinv : Inv s L)
    (hserves : Serves exec s (.host out)) (hs : HostCase s out s') : Matched exec s' := by
  cases hs with
  | grabNone hpc htop =>
    exact h.ofConsumer rfl rfl rfl rfl rfl rfl (.of_idle (.inl hpc))
      fun _ _ => ⟨rfl, rfl, rfl, rfl, rfl⟩
  | grab hpc htop =>
    refine h.ofConsumer rfl rfl rfl rfl rfl rfl (.of_idle (.inr rfl))
      fun _ _ => ⟨rfl, rfl, rfl, rfl, ?_⟩
    rw [served_of_idle (.inl hpc), served_of_idle (.inr rfl)]
    rfl
  | loadNext hpc =>
    have hnext := hinv.loadNext hpc
    refine h.moveConsumer _ (fun i => ?_) trivial
    by_cases hi : cfg.index s.consumer.iter = i
    · obtain ⟨w, -, -, hflag⟩ := hnext.answered_holder (by simp)
      have hflag : readyFlag s.buf.headers i = 1#32 := hi ▸ hflag
      simp [State.served, hpc, hi, hflag, HostPc.lanes]
    · rw [served_of_ne hi]
      exact served_of_ne (by exact hi)
  | loadMask hpc =>
    have hans : s.consumer.pc ≠ .idle ∧ s.consumer.pc ≠ .loadNext := by simp [hpc]
    refine h.moveConsumer _ (fun i => served_consumer hans (by simp) rfl (by rw [hpc]; rfl)) ?_
    simp [ConsumerData, Buffer.getHeader, hinv.index_eq]
  | loadService hpc =>
    have hans : s.consumer.pc ≠ .idle ∧ s.consumer.pc ≠ .loadNext := by simp [hpc]
    have hmask := h.consumer
    simp only [ConsumerData, hpc] at hmask
    have hheader : s.buf.getHeader s.consumer.iter = s.buf.headers (cfg.index s.consumer.iter) := by
      rw [Buffer.getHeader, hinv.index_eq]
    refine h.moveConsumer _ (fun i => served_consumer hans (by dsimp only; split_ifs <;> simp) rfl
      (by rw [hpc]; dsimp only; split_ifs <;> rfl)) ?_
    rw [hheader]
    by_cases hsan : (s.buf.headers (cfg.index s.consumer.iter)).service = HOSTEXEC_SID_SANITIZER
    · simp [ConsumerData, hsan, hmask]
    · simp [ConsumerData, hsan, hmask]
  | sanitize hpc => exact h.sanitize hinv hpc
  | execute lane hpc hactive => exact h.execute hinv lane hpc hactive hserves
  | skip lane hpc hactive => exact h.skip hinv lane hpc hactive
  | lanesDone wi hpc hwi =>
    have hans : s.consumer.pc ≠ .idle ∧ s.consumer.pc ≠ .loadNext := by simp [hpc]
    have hdata := h.consumer
    simp only [ConsumerData, hpc] at hdata
    obtain rfl : wi = 64 := by omega
    exact h.moveConsumer _ (fun i => served_consumer hans (by simp) rfl (by rw [hpc]; rfl)) trivial
  | clear hpc => exact h.clear hinv hpc

end Aomp.Hostexec
