import Aomp.Hostexec.Requests

/-!
# The steps of a wave keep the data of its call

A wave writes the header and the payload of its own packet only, before the packet is
listed, and reads the payload back only after READY is cleared.
-/
namespace Aomp.Hostexec

open Foundations

variable {cfg : Config} {exec : Service} {s s' : State cfg} {L : Lists} {w : Fin cfg.waves}
  {t : Wave}

theorem Inv.answered_head (h : Inv s L)
    (hpc : s.consumer.pc ≠ .idle ∧ s.consumer.pc ≠ .loadNext) :
    cfg.index s.consumer.iter ∈ L.listed := by
  obtain ⟨i, rest, hg, hiter, -⟩ := h.consumer.head hpc
  have hi : i < cfg.num_packets := h.lt i (by simp [Lists.listed, hg])
  rw [hiter, cfg.index_ptr hi]
  simp [Lists.listed, hg]

theorem Inv.served_of_not_listed (h : Inv s L) {i : ℕ} (hi : i ∉ L.listed) :
    s.served i = if readyFlag s.buf.headers i = 0#32 then 64 else 0 := by
  rw [State.served, if_neg]
  rintro ⟨hpc, rfl⟩
  exact hi (h.answered_head hpc)

theorem Inv.served_of_armed (h : Inv s L) (ha : (s.waves w).pc.armed) :
    s.served (cfg.index (s.waves w).packet_ptr) = 0 := by
  have hnl := h.not_listed_of_not_posted (Pc.owns_of_armed ha) (Pc.not_posted_of_armed ha)
  rw [h.served_of_not_listed hnl, (h.wave w).armed ha]
  rfl

theorem Inv.served_of_released (h : Inv s L) (hr : (s.waves w).pc.released) :
    s.served (cfg.index (s.waves w).packet_ptr) = 64 := by
  have hnl := h.not_listed_of_released (Pc.owns_of_released hr) hr
  rw [h.served_of_not_listed hnl, (h.wave w).released hr]
  rfl

theorem Filled.runs_eq_nil {dev : BitVec 32} {header : Header} {payload : Payload} {call : ℕ}
    {runs : List Execution} {reports : List Report}
    (h : Filled dev t header payload call 0 runs reports) : runs = [] := by
  have hlanes := h.lanes
  simpa using hlanes

/-- A step that writes no history and leaves the consumer alone. -/
structure SameHistory (s s' : State cfg) : Prop where
  device : s'.buf.device_id = s.buf.device_id
  consumer : s'.consumer = s.consumer
  calls : s'.calls = s.calls
  log : s'.log = s.log
  reports : s'.reports = s.reports

theorem SameHistory.runsOf (h : SameHistory s s') (call : ℕ) : s'.runsOf call = s.runsOf call := by
  rw [State.runsOf, State.runsOf, h.log]

theorem SameHistory.reportsOf (h : SameHistory s s') (call : ℕ) :
    s'.reportsOf call = s.reportsOf call := by
  rw [State.reportsOf, State.reportsOf, h.reports]

/-- The wave `w` becomes `t` in the same call; the packets of the others stay. -/
theorem Matched.ofWave (h : Matched exec s) (hwaves : s'.waves = Function.update s.waves w t)
    (hsame : SameHistory s s') (hcompleted : s'.completed = s.completed)
    (hpc : (s.waves w).pc ≠ .idle) (hpc' : t.pc ≠ .idle) (hcall : t.call = (s.waves w).call)
    (ht : WaveData s' t)
    (hother : ∀ v, v ≠ w → (s.waves v).pc.filled →
      SamePacket s s' (cfg.index (s.waves v).packet_ptr))
    (hdata : ConsumerData s') : Matched exec s' := by
  have hcalls : ∀ v, (s'.waves v).call = (s.waves v).call := by
    intro v
    by_cases hv : v = w
    · subst hv
      rw [hwaves, Function.update_self, hcall]
    · rw [hwaves, Function.update_of_ne hv]
  have hidle : ∀ v, (s'.waves v).pc ≠ .idle ↔ (s.waves v).pc ≠ .idle := by
    intro v
    by_cases hv : v = w
    · subst hv
      rw [hwaves, Function.update_self]
      exact iff_of_true hpc' hpc
    · rw [hwaves, Function.update_of_ne hv]
  refine ⟨hsame.device.trans h.device, fun v => ?_, hdata, ?_, ?_, ?_, ?_⟩
  · rw [hwaves]
    by_cases hv : v = w
    · subst hv
      rwa [Function.update_self]
    · rw [Function.update_of_ne hv]
      exact (h.wave v).frame (hother v hv) (hsame.runsOf _) (hsame.reportsOf _)
  · rw [hsame.calls, hcompleted]
    exact h.numbered.congr hcalls fun v => (hidle v).mp
  · rw [hsame.log, hcompleted]
    exact fun e he => ⟨(h.log e he).1.congr hcalls fun v => (hidle v).mpr, (h.log e he).2⟩
  · rw [hsame.reports, hcompleted]
    exact fun r hr => (h.reports r hr).congr hcalls fun v => (hidle v).mpr
  · rw [hcompleted]
    intro c hc
    rw [hsame.runsOf, hsame.reportsOf]
    exact h.answered c hc

theorem Matched.ofRegisters (h : Matched exec s)
    (hwaves : s'.waves = Function.update s.waves w t) (hsame : SameHistory s s')
    (hcompleted : s'.completed = s.completed) (hpackets : ∀ i, SamePacket s s' i)
    (hpc : (s.waves w).pc ≠ .idle) (hpc' : t.pc ≠ .idle) (hcall : t.call = (s.waves w).call)
    (ht : WaveData s t) : Matched exec s' :=
  h.ofWave hwaves hsame hcompleted hpc hpc' hcall
    (ht.frame (fun _ => hpackets _) (hsame.runsOf _) (hsame.reportsOf _)) (fun _ _ _ => hpackets _)
    (h.consumer.frame hsame.consumer (hpackets _).service (hpackets _).activemask)

theorem SamePacket.of_links (hhd : ∀ i, (s'.buf.headers i).service = (s.buf.headers i).service ∧
      (s'.buf.headers i).activemask = (s.buf.headers i).activemask ∧
      (s'.buf.headers i).control = (s.buf.headers i).control)
    (hpayloads : s'.buf.payloads = s.buf.payloads) (hcallOf : s'.callOf = s.callOf)
    (hconsumer : s'.consumer = s.consumer) (i : ℕ) : SamePacket s s' i :=
  ⟨(hhd i).1, (hhd i).2.1, by rw [hpayloads], by rw [hcallOf],
    served_congr hconsumer (by rw [readyFlag, readyFlag, (hhd i).2.2])⟩

theorem WaveData.stay_unfilled (h : WaveData s (s.waves w)) (hpc : (s.waves w).pc.unfilled)
    (hpc' : t.pc.unfilled) (hcall : t.call = (s.waves w).call) : WaveData s t where
  unfilled _ := by
    rw [hcall]
    exact h.unfilled hpc
  filled hf := by cases ht : t.pc <;> simp [ht, Pc.unfilled, Pc.filled] at hpc' hf

theorem WaveData.stay_filled (h : WaveData s (s.waves w)) (hpc : (s.waves w).pc.filled)
    (hpc' : t.pc.filled) (hreq : t.req = (s.waves w).req) (hcall : t.call = (s.waves w).call)
    (hptr : t.packet_ptr = (s.waves w).packet_ptr) (hretval : t.retval = (s.waves w).retval)
    (hfill : t.pc.filledWords ≤ (s.waves w).pc.filledWords)
    (hread : t.pc.readWords ≤ (s.waves w).pc.readWords) : WaveData s t where
  unfilled hu := by cases ht : t.pc <;> simp [ht, Pc.unfilled, Pc.filled] at hpc' hu
  filled _ := by
    rw [hptr, hcall]
    exact (h.filled hpc).move hreq hcall hretval hfill hread rfl rfl

theorem ConsumerData.of_idle (h : s.consumer.pc = .idle ∨ s.consumer.pc = .loadNext) :
    ConsumerData s := by
  unfold ConsumerData
  rcases h with h | h <;> simp [h]

/-- A wave writes the packet it fills: the consumer does not answer it. -/
theorem Matched.ownPacket (h : Matched exec s) (hinv : Inv s L) (ho : (s.waves w).pc.owns)
    (hposted : (s.waves w).pc.posted = false)
    (hwaves : s'.waves = Function.update s.waves w t) (hsame : SameHistory s s')
    (hcompleted : s'.completed = s.completed)
    (hrest : ∀ k, k ≠ cfg.index (s.waves w).packet_ptr → s'.buf.headers k = s.buf.headers k ∧
      s'.buf.payloads k = s.buf.payloads k ∧ s'.callOf k = s.callOf k)
    (hflag : readyFlag s'.buf.headers (cfg.index (s.waves w).packet_ptr) = 1#32)
    (hfilled : t.pc.filled) (hcall : t.call = (s.waves w).call)
    (hptr : t.packet_ptr = (s.waves w).packet_ptr)
    (ht : Filled cfg.device_id t (s'.buf.headers (cfg.index t.packet_ptr))
      (s'.buf.payloads (cfg.index t.packet_ptr)) (s'.callOf (cfg.index t.packet_ptr)) 0
      (s.runsOf t.call) (s.reportsOf t.call)) : Matched exec s' := by
  have hnl := hinv.not_listed_of_not_posted ho hposted
  set i := cfg.index (s.waves w).packet_ptr with hi
  have hhead : (s.consumer.pc ≠ .idle ∧ s.consumer.pc ≠ .loadNext) →
      cfg.index s.consumer.iter ≠ i := fun hc he => hnl (he ▸ hinv.answered_head hc)
  have hidle : (s.waves w).pc ≠ .idle := by
    intro hc
    simp [hc, Pc.owns] at ho
  refine h.ofWave hwaves hsame hcompleted hidle ?_ hcall ⟨?_, fun _ => ?_⟩ (fun v hv hf => ?_) ?_
  · intro hc
    simp [hc, Pc.filled] at hfilled
  · intro hu
    cases hpc : t.pc <;> simp [hpc, Pc.unfilled, Pc.filled] at hu hfilled
  · have hserved : s'.served (cfg.index t.packet_ptr) = 0 := by
      rw [State.served, hsame.consumer, hptr, ← hi, if_neg (fun hc => hhead hc.1 hc.2), hflag]
      rfl
    rw [hserved, hsame.runsOf, hsame.reportsOf]
    exact ht
  · have hne : cfg.index (s.waves v).packet_ptr ≠ i := fun he =>
      hv (hinv.holding.inj v w (Pc.owns_of_filled hf) ho he)
    obtain ⟨hhd, hpay, hcallOf⟩ := hrest _ hne
    exact ⟨by rw [hhd], by rw [hhd], hpay, hcallOf,
      served_congr hsame.consumer (by rw [readyFlag, readyFlag, hhd])⟩
  · by_cases hc : s.consumer.pc ≠ .idle ∧ s.consumer.pc ≠ .loadNext
    · have hhd := (hrest _ (hhead hc)).1
      exact h.consumer.frame hsame.consumer (by rw [hhd]) (by rw [hhd])
    · refine .of_idle ?_
      rw [hsame.consumer]
      tauto

theorem Matched.fillHeader (h : Matched exec s) (hinv : Inv s L)
    (hpc : (s.waves w).pc = .fillHeader) :
    Matched exec ({ s with
      buf := s.buf.setHeader (s.waves w).packet_ptr { s.buf.getHeader (s.waves w).packet_ptr with
        service := (s.waves w).req.service_id
        activemask := (s.waves w).req.activemask
        control := setReadyFlag 0#32 }
      callOf := Function.update s.callOf (s.buf.index (s.waves w).packet_ptr) (s.waves w).call
      }.setWave w { s.waves w with pc := .fillWord 0 }) := by
  have hidx := hinv.index_eq (s.waves w).packet_ptr
  obtain ⟨hruns, hreports⟩ := (h.wave w).unfilled (by simp [hpc, Pc.unfilled])
  refine h.ownPacket hinv (by simp [hpc, Pc.owns]) (by simp [hpc, Pc.posted]) rfl
    ⟨rfl, rfl, rfl, rfl, rfl⟩ rfl (fun k hk => ?_) ?_ rfl rfl rfl ?_
  · rw [← hidx] at hk
    simp [Function.update_of_ne hk]
  · simp [readyFlag, hidx]
  · rw [hruns, hreports]
    constructor
    · simp [hidx]
    · simp [hidx]
    · simp [hidx]
    · simp
    · simp
    · simp [Pc.filledWords]
    · simp
    · simp [Pc.readWords]

/-- `fill_packet` writes word `j` of the active lanes. -/
theorem Matched.fillWord (h : Matched exec s) (hinv : Inv s L) {j : ℕ}
    (hpc : (s.waves w).pc = .fillWord j) :
    Matched exec ((s.setBuf (s.buf.setPayload (s.waves w).packet_ptr
      ((s.buf.getPayload (s.waves w).packet_ptr).copyWord
        (s.waves w).req.args (s.waves w).req.activemask j))).setWave w { s.waves w with
          pc := if j + 1 < 8 then .fillWord (j + 1) else .push .ready .load }) := by
  have hidx := hinv.index_eq (s.waves w).packet_ptr
  have hfilled := (h.wave w).filled (by simp [hpc, Pc.filled])
  rw [hinv.served_of_armed (by simp [hpc, Pc.armed])] at hfilled
  refine h.ownPacket hinv (by simp [hpc, Pc.owns]) (by simp [hpc, Pc.posted]) rfl
    ⟨rfl, rfl, rfl, rfl, rfl⟩ rfl (fun k hk => ?_) ?_ (by split_ifs <;> rfl) rfl rfl ?_
  · rw [← hidx] at hk
    simp [Function.update_of_ne hk]
  · exact (hinv.wave w).armed (by simp [hpc, Pc.armed])
  · have hnil := hfilled.runs_eq_nil
    refine ⟨hfilled.service, hfilled.activemask, hfilled.call, hfilled.lanes, ?_, ?_,
      hfilled.reports, ?_⟩
    · rw [hnil]
      simp
    · intro l hl hn k hk
      have hwords : k.val < j + 1 := by
        by_cases hj : j + 1 < 8
        · simpa [hj, Pc.filledWords] using hk
        · omega
      by_cases hkj : k.val = j
      · simp [hidx, Payload.copyWord, hl, hkj]
      · have hold := hfilled.args l hl hn k (by simp [hpc, Pc.filledWords]; omega)
        simpa [hidx, Payload.copyWord, hkj, Buffer.getPayload] using hold
    · intro l hl k hk
      have : (if j + 1 < 8 then Pc.fillWord (j + 1) else Pc.push .ready .load).readWords = 0 := by
        split_ifs <;> rfl
      simp [this] at hk

theorem Matched.read (h : Matched exec s) (hinv : Inv s L) {j : ℕ}
    (hpc : (s.waves w).pc = .read j) :
    Matched exec (s.setWave w { s.waves w with
      retval := (s.waves w).retval.copyWord (s.buf.getPayload (s.waves w).packet_ptr)
        (s.waves w).req.activemask j
      pc := if j + 1 < 8 then .read (j + 1) else .push .free .load }) := by
  have hidx := hinv.index_eq (s.waves w).packet_ptr
  have hfilled := (h.wave w).filled (by simp [hpc, Pc.filled])
  refine h.ofRegisters rfl ⟨rfl, rfl, rfl, rfl, rfl⟩ rfl (fun i => ⟨rfl, rfl, rfl, rfl, rfl⟩)
    (by simp [hpc]) (by split_ifs <;> simp) rfl ⟨?_, fun _ => ?_⟩
  · intro hu
    split_ifs at hu <;> simp [Pc.unfilled] at hu
  · refine ⟨hfilled.service, hfilled.activemask, hfilled.call, hfilled.lanes, hfilled.run, ?_,
      hfilled.reports, ?_⟩
    · exact fun l hl hn k _ => hfilled.args l hl hn k (by simp [hpc, Pc.filledWords])
    · intro l hl k hk
      have hwords : k.val < j + 1 := by
        by_cases hj : j + 1 < 8
        · simpa [hj, Pc.readWords] using hk
        · omega
      by_cases hkj : k.val = j
      · simp [Payload.copyWord, hl, hkj, Buffer.getPayload, hidx]
      · have hold := hfilled.retval l hl k (by simp [hpc, Pc.readWords]; omega)
        simpa [Payload.copyWord, hkj] using hold

theorem Filled.answered {dev : BitVec 32} {header : Header} {payload : Payload} {call : ℕ}
    {runs : List Execution} {reports : List Report}
    (h : Filled dev t header payload call 64 runs reports) (hfill : t.pc.filledWords = 8)
    (hread : t.pc.readWords = 8) : Answered dev ⟨t.call, t.req, t.retval⟩ runs reports := by
  have hretval : ∀ l : Fin 64, laneActive t.req.activemask l → t.retval l = payload l := by
    intro l hl
    ext1 k
    exact h.retval l hl k (by rw [hread]; exact k.isLt)
  constructor
  · intro hs
    have hlanes := h.lanes
    have hreports := h.reports
    rw [if_neg hs, lanesBelow_of_le _ le_rfl] at hlanes
    rw [if_neg (fun hc => hs hc.1)] at hreports
    refine ⟨hlanes, fun e he => ⟨(h.run e he).1, ?_⟩, hreports⟩
    exact (h.run e he).2.trans (hretval _ (h.run e he).1.active).symm
  · intro hs
    have hlanes := h.lanes
    have hreports := h.reports
    rw [if_pos hs, List.map_eq_nil_iff] at hlanes
    rw [if_pos ⟨hs, rfl⟩] at hreports
    refine ⟨hlanes, hreports, fun l hl => ?_⟩
    apply (hretval l hl).trans
    ext1 k
    exact h.args l hl (.inl hs) k (by rw [hfill]; exact k.isLt)

/-- `return_free_packet` succeeds: the call has completed. -/
theorem Matched.pushFree (h : Matched exec s) (hinv : Inv s L)
    (hpc : (s.waves w).pc = .push .free .cas) :
    Matched exec ({ s.setBuf (s.buf.setTop .free
        (incPtrTag (s.waves w).packet_ptr s.buf.index_size)) with
      recycled := Function.update s.recycled (s.buf.index (s.waves w).packet_ptr)
        (s.recycled (s.buf.index (s.waves w).packet_ptr) + 1)
      completed := ⟨(s.waves w).call, (s.waves w).req, (s.waves w).retval⟩ :: s.completed
      }.setWave w { s.waves w with pc := .idle }) := by
  have hactive : (s.waves w).pc ≠ .idle := by simp [hpc]
  have hfilled := (h.wave w).filled (by simp [hpc, Pc.filled])
  rw [hinv.served_of_released (by simp [hpc, Pc.released])] at hfilled
  have hanswered := hfilled.answered (by simp [hpc, Pc.filledWords]) (by simp [hpc, Pc.readWords])
  have hothers : ∀ v, (Function.update s.waves w { s.waves w with pc := .idle } v).pc ≠ .idle →
      v ≠ w ∧ (s.waves v).pc ≠ .idle := by
    intro v hv
    by_cases hvw : v = w
    · subst hvw
      simp at hv
    · exact ⟨hvw, by rwa [Function.update_of_ne hvw] at hv⟩
  have hstarted : ∀ call, Started s.waves s.completed call →
      Started (Function.update s.waves w { s.waves w with pc := .idle })
        (⟨(s.waves w).call, (s.waves w).req, (s.waves w).retval⟩ :: s.completed) call := by
    rintro call (⟨c, hc, he⟩ | ⟨v, hv, he⟩)
    · exact .inl ⟨c, by simp [hc], he⟩
    · by_cases hvw : v = w
      · subst hvw
        exact .inl ⟨_, List.mem_cons_self, he⟩
      · exact .inr ⟨v, by rwa [Function.update_of_ne hvw], by rwa [Function.update_of_ne hvw]⟩
  refine ⟨h.device, fun v => ?_, h.consumer, ⟨?_, ?_, ?_, ?_, ?_⟩,
    fun e he => ⟨hstarted _ (h.log e he).1, (h.log e he).2⟩, fun r hr => hstarted _ (h.reports r hr),
    ?_⟩
  · by_cases hv : v = w
    · subst hv
      simp only [State.setWave_waves, Function.update_self]
      exact ⟨by simp [Pc.unfilled], by simp [Pc.filled]⟩
    · simp only [State.setWave_waves, State.setBuf_waves, Function.update_of_ne hv]
      exact (h.wave v).frame (fun _ => ⟨rfl, rfl, rfl, rfl, rfl⟩) rfl rfl
  · intro v hv
    obtain ⟨hvw, hv⟩ := hothers v hv
    simp only [State.setWave_waves, State.setBuf_waves, Function.update_of_ne hvw]
    exact h.numbered.lt v hv
  · intro v v' hv hv' he
    obtain ⟨hvw, hv⟩ := hothers v hv
    obtain ⟨hvw', hv'⟩ := hothers v' hv'
    simp only [State.setWave_waves, State.setBuf_waves, Function.update_of_ne hvw,
      Function.update_of_ne hvw'] at he
    exact h.numbered.inj v v' hv hv' he
  · intro c hc
    rcases List.mem_cons.mp hc with rfl | hc
    · exact h.numbered.lt w hactive
    · exact h.numbered.completed_lt c hc
  · intro c hc v hv
    obtain ⟨hvw, hv⟩ := hothers v hv
    simp only [State.setWave_waves, State.setBuf_waves, Function.update_of_ne hvw]
    rcases List.mem_cons.mp hc with rfl | hc
    · exact fun he => hvw (h.numbered.inj w v hactive hv he).symm
    · exact h.numbered.completed_ne c hc v hv
  · refine List.nodup_cons.mpr ⟨fun hm => ?_, h.numbered.nodup⟩
    obtain ⟨c, hc, he⟩ := List.mem_map.mp hm
    exact h.numbered.completed_ne c hc w hactive he
  · intro c hc
    rcases List.mem_cons.mp hc with rfl | hc
    · exact hanswered
    · exact h.answered c hc

theorem Matched.waveStep (h : Matched exec s) (hinv : Inv s L) (hs : WaveCase s w s') :
    Matched exec s' := by
  cases hs with
  | popLoad hpc | popNext hpc | popRetry hpc =>
    exact h.ofRegisters rfl ⟨rfl, rfl, rfl, rfl, rfl⟩ rfl (fun i => ⟨rfl, rfl, rfl, rfl, rfl⟩)
      (by simp [hpc]) (by simp) rfl ((h.wave w).stay_unfilled (by simp [hpc, Pc.unfilled]) rfl rfl)
  | popTake hpc =>
    exact h.ofRegisters rfl ⟨rfl, rfl, rfl, rfl, rfl⟩ rfl (fun i => ⟨rfl, rfl, rfl, rfl, rfl⟩)
      (by simp [hpc]) (by simp) rfl ((h.wave w).stay_unfilled (by simp [hpc, Pc.unfilled]) rfl rfl)
  | fillHeader hpc => exact h.fillHeader hinv hpc
  | fillWord j hpc => exact h.fillWord hinv hpc
  | pushLoad st hpc | pushRetry st hpc =>
    refine h.ofRegisters rfl ⟨rfl, rfl, rfl, rfl, rfl⟩ rfl (fun i => ⟨rfl, rfl, rfl, rfl, rfl⟩)
      (by simp [hpc]) (by simp) rfl ((h.wave w).stay_filled (by rw [hpc]; rfl) rfl rfl rfl rfl rfl
        (by rw [hpc]; rfl) ?_)
    rw [hpc]
    cases st <;> exact le_rfl
  | pushLink st hpc =>
    refine h.ofRegisters rfl ⟨rfl, rfl, rfl, rfl, rfl⟩ rfl
      (SamePacket.of_links (fun i => ?_) rfl rfl rfl)
      (by simp [hpc]) (by simp) rfl ((h.wave w).stay_filled (by rw [hpc]; rfl) rfl rfl rfl rfl rfl
        (by rw [hpc]; rfl) ?_)
    · simp only [State.setWave_buf, State.setBuf_buf, Buffer.setHeader_headers, Buffer.getHeader]
      by_cases hi : i = s.buf.index ((s.waves w).pushPtr s.buf.index_size st)
      · simp [hi]
      · simp [Function.update_of_ne hi]
    · rw [hpc]
      cases st <;> exact le_rfl
  | pushReady hpc | ring hpc =>
    exact h.ofRegisters rfl ⟨rfl, rfl, rfl, rfl, rfl⟩ rfl (fun i => ⟨rfl, rfl, rfl, rfl, rfl⟩)
      (by simp [hpc]) (by simp) rfl ((h.wave w).stay_filled (by rw [hpc]; rfl) rfl rfl rfl rfl rfl
        (by rw [hpc]; exact le_rfl) (by rw [hpc]; exact le_rfl))
  | pushFree hpc => exact h.pushFree hinv hpc
  | answered hpc =>
    exact h.ofRegisters rfl ⟨rfl, rfl, rfl, rfl, rfl⟩ rfl (fun i => ⟨rfl, rfl, rfl, rfl, rfl⟩)
      (by simp [hpc]) (by simp) rfl ((h.wave w).stay_filled (by rw [hpc]; rfl) rfl rfl rfl rfl rfl
        (by rw [hpc]; exact le_rfl) (by rw [hpc]; exact le_rfl))
  | spin => exact h
  | read j hpc => exact h.read hinv hpc

end Aomp.Hostexec
