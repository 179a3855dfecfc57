import Aomp.Hostexec.Ownership

/-!
# The steps of a wave keep the invariant

Each step of `hostexec_invoke` keeps the invariant of `Ownership`, with the lists moved
as the step moves a packet: a successful `pop` takes the head of the free stack and a
successful `push` adds a head.
-/
namespace Aomp.Hostexec

open Foundations

variable {cfg : Config} {s s' : State cfg} {L : Lists} {hd : ℕ → Header} {rc : ℕ → ℕ}
  {w : Fin cfg.waves} {t t' : Wave} {out : Slot}

theorem WaveInv.of_not_owns (hpc : t.pc.owns = false)
    (hF : t.pc = .pop .next ∨ t.pc = .pop .cas → cfg.index t.F < cfg.num_packets ∧
      t.F = cfg.ptr (cfg.index t.F) t.seen ∧ t.seen ≤ rc (cfg.index t.F))
    (hN : t.pc = .pop .cas → (hd (cfg.index t.F)).next = t.N) : WaveInv cfg hd rc L t where
  ptr_eq ho := by simp [hpc] at ho
  not_free ho := by simp [hpc] at ho
  listed ho := by simp [hpc] at ho
  armed ha := by simp [Pc.owns_of_armed ha] at hpc
  released hr := by simp [Pc.owns_of_released hr] at hpc
  link st h := by simp [h, Pc.owns] at hpc
  popF := hF
  popN h _ _ := hN h

theorem WaveInv.move (h : WaveInv cfg hd rc L t) (ho : t.pc.owns) (ho' : t'.pc.owns)
    (hptr : t'.packet_ptr = t.packet_ptr) (hposted : t'.pc.posted = t.pc.posted)
    (harmed : t'.pc.armed → t.pc.armed)
    (hrel : t'.pc.released → readyFlag hd (cfg.index t.packet_ptr) = 0#32)
    (hlink : ∀ st, t'.pc = .push st .cas → (hd (cfg.index t.packet_ptr)).next = t'.F) :
    WaveInv cfg hd rc L t' where
  ptr_eq _ := by rw [hptr]; exact h.ptr_eq ho
  not_free _ := by rw [hptr]; exact h.not_free ho
  listed _ := by rw [hptr, hposted]; exact h.listed ho
  armed ha := by rw [hptr]; exact h.armed (harmed ha)
  released hr := by rw [hptr]; exact hrel hr
  link st hpc := by rw [hptr]; exact hlink st hpc
  popF hpc := by rcases hpc with hpc | hpc <;> simp [hpc, Pc.owns] at ho'
  popN hpc := by simp [hpc, Pc.owns] at ho'

theorem Inv.not_listed_of_not_posted (h : Inv s L) (ho : (s.waves w).pc.owns)
    (hp : (s.waves w).pc.posted = false) : cfg.index (s.waves w).packet_ptr ∉ L.listed := by
  rw [(h.wave w).listed ho]
  simp [hp]

theorem Inv.not_listed_of_released (h : Inv s L) (ho : (s.waves w).pc.owns)
    (hr : (s.waves w).pc.released) : cfg.index (s.waves w).packet_ptr ∉ L.listed := by
  rw [(h.wave w).listed ho, (h.wave w).released hr]
  simp

theorem Inv.free_stack_eq (h : Inv s L) {i : ℕ} {rest : List ℕ} (hL : L.free = i :: rest) :
    s.buf.free_stack = cfg.ptr i (s.recycled i) ∧
      Chain cfg s.buf.headers s.recycled (s.buf.headers i).next rest := by
  have := h.free
  rw [hL] at this
  exact this

theorem Inv.free_top (h : Inv s L) (hw : (s.waves w).pc.owns = false) :
    ∃ i < cfg.num_packets, s.buf.free_stack = cfg.ptr i (s.recycled i) := by
  obtain ⟨i, rest, hL⟩ := List.exists_cons_of_ne_nil (h.holding.free_ne_nil hw)
  exact ⟨i, h.lt i (by simp [hL]), (h.free_stack_eq hL).1⟩

theorem Inv.free_stack_ne_zero (h : Inv s L) (hw : (s.waves w).pc.owns = false) :
    s.buf.free_stack ≠ 0#64 := by
  obtain ⟨i, hi, he⟩ := h.free_top hw
  rw [he]
  exact cfg.ptr_ne_zero hi _

theorem Inv.loadFree (h : Inv s L) (hw : (s.waves w).pc.owns = false) :
    Inv (s.setWave w { s.waves w with
      pc := .pop .next
      F := s.buf.free_stack
      seen := s.recycled (s.buf.index s.buf.free_stack) }) L := by
  obtain ⟨i, hi, he⟩ := h.free_top hw
  have hidx : cfg.index s.buf.free_stack = i := by rw [he, cfg.index_ptr hi]
  refine h.setWave (.of_not_owns rfl (fun _ => ?_) (by simp)) (hw ▸ rfl) (by simp [Pc.owns])
  simp only [h.index_eq, hidx]
  exact ⟨hi, he, le_rfl⟩

/-- The compare-and-swap of `pop` succeeds: the link it read is the link of the top. -/
theorem Inv.popTake (h : Inv s L) (hwrap : NoTagWrap s) (hpc : (s.waves w).pc = .pop .cas)
    (htop : s.buf.free_stack = (s.waves w).F) :
    ∃ L', L'.ready = L.ready ∧ Inv ((s.setBuf (s.buf.setTop .free (s.waves w).N)).setWave w
      { s.waves w with pc := .fillHeader, packet_ptr := (s.waves w).F }) L' := by
  have hw : (s.waves w).pc.owns = false := by simp [hpc, Pc.owns]
  obtain ⟨i, rest, hL⟩ := List.exists_cons_of_ne_nil (h.holding.free_ne_nil hw)
  have hi : i < cfg.num_packets := h.lt i (by simp [hL])
  obtain ⟨htopi, hrest⟩ := h.free_stack_eq hL
  obtain ⟨-, hF, hseen⟩ := (h.wave w).popF (.inr hpc)
  have hidx : cfg.index (s.waves w).F = i := by rw [← htop, htopi, cfg.index_ptr hi]
  have hbound := hwrap w (.inr hpc)
  rw [h.index_eq, h.size, hidx] at hbound
  rw [hidx] at hF hseen
  -- the tag still is the tag of the load, so the packet was not recycled since
  obtain ⟨-, hrc⟩ := packetPtr_eq_of_lt_period cfg.is_lt (cfg.fits hi) (cfg.fits hi)
    (hF.symm.trans (htop.symm.trans htopi)) hseen hbound
  have hN : (s.buf.headers i).next = (s.waves w).N := by
    have := (h.wave w).popN hpc
    rw [hidx] at this
    exact this hrc.symm (by simp [hL])
  have hnodup := h.nodup
  rw [hL, List.cons_append, List.nodup_cons, List.mem_append, not_or] at hnodup
  refine ⟨{ L with free := rest }, rfl, h.size, ?_, h.ready, h.consumer, hnodup.2, ?_, fun v => ?_, ?_⟩
  · simpa [← hN] using hrest
  · exact fun k hk => h.lt k (by rw [hL]; exact List.mem_cons_of_mem _ hk)
  · simp only [State.setWave_waves, State.setBuf_waves, State.setWave_buf, State.setBuf_buf,
      Buffer.setTop_headers, State.setWave_recycled, State.setBuf_recycled]
    by_cases hv : v = w
    · subst hv
      rw [Function.update_self]
      exact {
        ptr_eq := fun _ => by rw [hidx]; exact ⟨hi, htop.symm.trans htopi⟩
        not_free := fun _ => by rw [hidx]; exact hnodup.1.1
        listed := fun _ => by
          rw [hidx]
          exact iff_of_false hnodup.1.2 (by simp [Pc.posted])
        armed := by simp [Pc.armed]
        released := by simp [Pc.released]
        link := by simp
        popF := by simp
        popN := by simp }
    · rw [Function.update_of_ne hv]
      exact (h.wave v).frame
        (fun _ => ⟨rfl, rfl, fun hm => by rw [hL]; exact List.mem_cons_of_mem _ hm, Iff.rfl⟩)
        fun k => ⟨le_rfl, fun _ hk => ⟨by rw [hL]; exact List.mem_cons_of_mem _ hk, rfl⟩⟩
  · exact Holding.take (i := i) (hL ▸ h.holding) (fun v hv => hL ▸ (h.wave v).not_free hv) hw rfl hidx

theorem Inv.pushReady (h : Inv s L) (hpc : (s.waves w).pc = .push .ready .cas)
    (htop : s.buf.ready_stack = (s.waves w).F) :
    ∃ L', L'.ready = cfg.index (s.waves w).packet_ptr :: L.ready ∧
      Inv ((s.setBuf (s.buf.setTop .ready (s.waves w).packet_ptr)).setWave w
        { s.waves w with pc := .ring }) L' := by
  have ho : (s.waves w).pc.owns := by simp [hpc, Pc.owns]
  obtain ⟨hi, hptr⟩ := (h.wave w).ptr_eq ho
  have hnf := (h.wave w).not_free ho
  have hnl := h.not_listed_of_not_posted ho (by simp [hpc, Pc.posted])
  have hflag := (h.wave w).armed (by simp [hpc, Pc.armed])
  have hlink := (h.wave w).link .ready hpc
  set i := cfg.index (s.waves w).packet_ptr with hidx
  refine ⟨{ L with ready := i :: L.ready }, rfl, h.size, h.free, ?_, h.consumer, ?_, ?_, fun v => ?_,
    h.holding.keep (by simp [hpc, Pc.owns]) (fun _ => rfl)⟩
  · have hpush := Linked.push (i := i) h.ready (hlink.trans htop.symm)
    simpa [Chain, ← hptr] using hpush
  · simp only [Lists.listed, List.cons_append]
    rw [List.nodup_middle, List.nodup_cons, List.mem_append, not_or]
    exact ⟨⟨hnf, hnl⟩, h.nodup⟩
  · intro k hk
    simp only [Lists.listed, List.cons_append, List.mem_append, List.mem_cons] at hk
    rcases hk with hk | rfl | hk
    · exact h.lt k (by simp [hk])
    · exact hi
    · exact h.lt k (by simp [Lists.listed, hk])
  · simp only [State.setWave_waves, State.setBuf_waves, State.setWave_buf, State.setBuf_buf,
      Buffer.setTop_headers, State.setWave_recycled, State.setBuf_recycled]
    by_cases hv : v = w
    · subst hv
      rw [Function.update_self]
      exact {
        ptr_eq := fun _ => ⟨hi, hptr⟩
        not_free := fun _ => hnf
        listed := fun _ => iff_of_true (by simp [Lists.listed, ← hidx]) ⟨rfl, hflag⟩
        armed := by simp [Pc.armed]
        released := by simp [Pc.released]
        link := by simp
        popF := by simp
        popN := by simp }
    · rw [Function.update_of_ne hv]
      refine (h.wave v).frame (fun hov => ⟨rfl, rfl, id, ?_⟩) fun k => ⟨le_rfl, fun _ hk => ⟨hk, rfl⟩⟩
      have hne : cfg.index (s.waves v).packet_ptr ≠ i := fun he => hv (h.holding.inj v w hov ho he)
      simp [Lists.listed, hne]

/-- `return_free_packet` succeeds: the packet is free again, under a new tag. -/
theorem Inv.pushFree (h : Inv s L) (hpc : (s.waves w).pc = .push .free .cas)
    (htop : s.buf.free_stack = (s.waves w).F) {done : List Completed} :
    ∃ L', L'.ready = L.ready ∧ Inv ({ s.setBuf (s.buf.setTop .free
        (incPtrTag (s.waves w).packet_ptr s.buf.index_size)) with
      recycled := Function.update s.recycled (s.buf.index (s.waves w).packet_ptr)
        (s.recycled (s.buf.index (s.waves w).packet_ptr) + 1)
      completed := done }.setWave w { s.waves w with pc := .idle }) L' := by
  have ho : (s.waves w).pc.owns := by simp [hpc, Pc.owns]
  obtain ⟨hi, hptr⟩ := (h.wave w).ptr_eq ho
  have hnf := (h.wave w).not_free ho
  have hnl := h.not_listed_of_released ho (by simp [hpc, Pc.released])
  have hlink := (h.wave w).link .free hpc
  simp only [h.index_eq, h.size]
  set i := cfg.index (s.waves w).packet_ptr with hidx
  have htag : incPtrTag (s.waves w).packet_ptr cfg.is = cfg.ptr i (s.recycled i + 1) := by
    rw [hptr, cfg.incPtrTag_ptr hi]
  have hrc : ∀ k, k ≠ i → Function.update s.recycled i (s.recycled i + 1) k = s.recycled k :=
    fun k hk => Function.update_of_ne hk _ _
  have hout : ∀ {xs : List ℕ}, i ∉ xs → ∀ k ∈ xs,
      Function.update s.recycled i (s.recycled i + 1) k = s.recycled k :=
    fun hxs k hk => hrc k (by rintro rfl; exact hxs hk)
  have hnr : i ∉ L.ready ∧ i ∉ L.grabbed := by simpa [Lists.listed] using hnl
  refine ⟨{ L with free := i :: L.free }, rfl, h.size, ?_, ?_, ?_, ?_, ?_, fun v => ?_,
    h.holding.drop hidx.symm rfl⟩
  · have hfree := h.free.congr (hout hnf) fun _ _ => rfl
    have := Linked.push (i := i) hfree (hlink.trans htop.symm)
    simpa [Chain, htag] using this
  · exact h.ready.congr (hout hnr.1) fun _ _ => rfl
  · exact h.consumer.congr rfl (hout hnr.2) fun _ _ => rfl
  · rw [List.cons_append, List.nodup_cons, List.mem_append, not_or]
    exact ⟨⟨hnf, hnl⟩, h.nodup⟩
  · intro k hk
    rw [List.cons_append, List.mem_cons] at hk
    rcases hk with rfl | hk
    · exact hi
    · exact h.lt k hk
  · simp only [State.setWave_waves, State.setBuf_waves, State.setWave_buf, State.setBuf_buf,
      Buffer.setTop_headers, State.setWave_recycled]
    by_cases hv : v = w
    · subst hv
      rw [Function.update_self]
      exact .of_not_owns rfl (by simp) (by simp)
    · rw [Function.update_of_ne hv]
      refine (h.wave v).frame (fun hov => ?_) fun k => ?_
      · have hne : cfg.index (s.waves v).packet_ptr ≠ i := fun he => hv (h.holding.inj v w hov ho he)
        exact ⟨hrc _ hne, rfl, fun hm => (List.mem_cons.mp hm).resolve_left hne, Iff.rfl⟩
      · by_cases hk : k = i
        · subst hk
          simp
        · rw [hrc k hk]
          exact ⟨le_rfl, fun _ hm => ⟨(List.mem_cons.mp hm).resolve_left hk, rfl⟩⟩

theorem Inv.popNext (h : Inv s L) (hpc : (s.waves w).pc = .pop .next) :
    Inv (s.setWave w { s.waves w with
      pc := .pop .cas, N := (s.buf.getHeader (s.waves w).F).next }) L := by
  refine h.setWave (.of_not_owns rfl (fun _ => (h.wave w).popF (.inl hpc)) fun _ => ?_)
    (by rw [hpc]; rfl) (by simp [Pc.owns])
  simp [Buffer.getHeader, h.index_eq]

theorem Inv.fillHeader (h : Inv s L) (hpc : (s.waves w).pc = .fillHeader) (hdr : Header)
    (hready : getReadyFlag hdr.control = 1#32) :
    Inv ((s.setBuf (s.buf.setHeader (s.waves w).packet_ptr hdr)).setWave w
      { s.waves w with pc := .fillWord 0 }) L := by
  have ho : (s.waves w).pc.owns := by simp [hpc, Pc.owns]
  have hnl := h.not_listed_of_not_posted ho (by simp [hpc, Pc.posted])
  refine h.writeHeader ho rfl hnl ?_ (by simp [hpc, Pc.owns]) (fun _ => rfl)
  exact {
    ptr_eq := fun _ => (h.wave w).ptr_eq ho
    not_free := fun _ => (h.wave w).not_free ho
    listed := fun _ => iff_of_false hnl (by simp [Pc.posted])
    armed := fun _ => by simp [readyFlag, hready]
    released := by simp [Pc.released]
    link := by simp
    popF := by simp
    popN := by simp }

theorem Inv.pushLink (h : Inv s L) {st : StackId} (hpc : (s.waves w).pc = .push st .link) :
    Inv ((s.setBuf (s.buf.setHeader ((s.waves w).pushPtr s.buf.index_size st)
      { s.buf.getHeader ((s.waves w).pushPtr s.buf.index_size st) with
        next := (s.waves w).F })).setWave w { s.waves w with pc := .push st .cas }) L := by
  have ho : (s.waves w).pc.owns := by simp [hpc, Pc.owns]
  obtain ⟨hi, hptr⟩ := (h.wave w).ptr_eq ho
  have hidx : cfg.index ((s.waves w).pushPtr s.buf.index_size st) =
      cfg.index (s.waves w).packet_ptr := by
    cases st with
    | ready => rfl
    | free => rw [Wave.pushPtr, h.size, hptr, cfg.incPtrTag_ptr hi, cfg.index_ptr hi, cfg.index_ptr hi]
  have hnl : cfg.index (s.waves w).packet_ptr ∉ L.listed := by
    cases st with
    | ready => exact h.not_listed_of_not_posted ho (by simp [hpc, Pc.posted])
    | free => exact h.not_listed_of_released ho (by simp [hpc, Pc.released])
  refine h.writeHeader ho hidx hnl ?_ (by simp [hpc, Pc.owns]) (fun _ => rfl)
  have hflag : ∀ x : Word, readyFlag (Function.update s.buf.headers
      (cfg.index (s.waves w).packet_ptr)
      { s.buf.headers (cfg.index (s.waves w).packet_ptr) with next := x })
      (cfg.index (s.waves w).packet_ptr) = readyFlag s.buf.headers
        (cfg.index (s.waves w).packet_ptr) := by simp [readyFlag]
  rw [Buffer.getHeader, h.index_eq, hidx]
  exact {
    ptr_eq := fun _ => ⟨hi, hptr⟩
    not_free := fun _ => (h.wave w).not_free ho
    listed := fun _ => by
      apply iff_of_false hnl
      intro hc
      rw [hflag] at hc
      exact hnl (((h.wave w).listed ho).mpr ⟨by rw [hpc]; cases st <;> exact hc.1, hc.2⟩)
    armed := fun ha => by
      rw [hflag]
      exact (h.wave w).armed (by rw [hpc]; cases st <;> exact ha)
    released := fun hr => by
      rw [hflag]
      exact (h.wave w).released (by rw [hpc]; cases st <;> exact hr)
    link := fun _ _ => by simp
    popF := by simp
    popN := by simp }

/-- A step of a wave keeps the invariant, and the ready stack only grows by the packet of a
wave that goes on to ring. -/
theorem Inv.waveStep (h : Inv s L) (hwrap : NoTagWrap s) (hs : WaveCase s w s') :
    ∃ L', L'.ready = (if (s'.waves w).pc = .ring then cfg.index (s.waves w).packet_ptr :: L.ready
      else L.ready) ∧ Inv s' L' := by
  cases hs with
  | popLoad hpc => exact ⟨L, by simp, h.loadFree (by rw [hpc]; rfl)⟩
  | popNext hpc => exact ⟨L, by simp, h.popNext hpc⟩
  | popTake hpc htop => simpa using h.popTake hwrap hpc htop
  | popRetry hpc => exact ⟨L, by simp, h.loadFree (by rw [hpc]; rfl)⟩
  | fillHeader hpc =>
    have := h.fillHeader hpc { s.buf.getHeader (s.waves w).packet_ptr with
      service := (s.waves w).req.service_id
      activemask := (s.waves w).req.activemask
      control := setReadyFlag 0#32 } (by simp)
    exact ⟨L, by simp, this.size, this.free, this.ready, this.consumer, this.nodup, this.lt,
      this.wave, this.holding⟩
  | fillWord j hpc =>
    have hmove : Inv (s.setWave w { s.waves w with
        pc := if j + 1 < 8 then .fillWord (j + 1) else .push .ready .load }) L := by
      have ho : (s.waves w).pc.owns := by simp [hpc, Pc.owns]
      split_ifs
      all_goals
        exact h.setWave ((h.wave w).move ho rfl rfl (by rw [hpc]; rfl) (fun _ => by rw [hpc]; rfl)
          (by simp [Pc.released]) (by simp)) (by rw [hpc]; rfl) fun _ => rfl
    refine ⟨L, ?_, hmove.size, hmove.free, hmove.ready, hmove.consumer, hmove.nodup, hmove.lt,
      hmove.wave, hmove.holding⟩
    by_cases hj : j + 1 < 8 <;> simp [hj]
  | pushLoad st hpc =>
    have ho : (s.waves w).pc.owns := by simp [hpc, Pc.owns]
    refine ⟨L, by simp, h.setWave ((h.wave w).move ho rfl rfl (by rw [hpc]; cases st <;> rfl)
      (fun ha => by rw [hpc]; cases st <;> exact ha)
      (fun hr => (h.wave w).released (by rw [hpc]; cases st <;> exact hr)) (by simp))
      (by rw [hpc]; rfl) fun _ => rfl⟩
  | pushLink st hpc => exact ⟨L, by simp, h.pushLink hpc⟩
  | pushRetry st hpc =>
    have ho : (s.waves w).pc.owns := by simp [hpc, Pc.owns]
    refine ⟨L, by simp, h.setWave ((h.wave w).move ho rfl rfl (by rw [hpc]; cases st <;> rfl)
      (fun ha => by rw [hpc]; cases st <;> exact ha)
      (fun hr => (h.wave w).released (by rw [hpc]; cases st <;> exact hr)) (by simp))
      (by rw [hpc]; rfl) fun _ => rfl⟩
  | pushReady hpc htop => simpa using h.pushReady hpc htop
  | pushFree hpc htop => simpa using h.pushFree hpc htop
  | ring hpc =>
    have ho : (s.waves w).pc.owns := by simp [hpc, Pc.owns]
    have hmove := h.setWave (w := w) (t := { s.waves w with pc := .wait })
      ((h.wave w).move ho rfl rfl (by rw [hpc]; rfl) (by simp [Pc.armed]) (by simp [Pc.released])
        (by simp)) (by rw [hpc]; rfl) fun _ => rfl
    exact ⟨L, by simp, hmove.size, hmove.free, hmove.ready, hmove.consumer, hmove.nodup, hmove.lt,
      hmove.wave, hmove.holding⟩
  | answered hpc hflag =>
    have ho : (s.waves w).pc.owns := by simp [hpc, Pc.owns]
    rw [Buffer.getHeader, h.index_eq] at hflag
    exact ⟨L, by simp, h.setWave ((h.wave w).move ho rfl rfl (by rw [hpc]; rfl) (by simp [Pc.armed])
      (fun _ => hflag) (by simp)) (by rw [hpc]; rfl) fun _ => rfl⟩
  | spin hpc => exact ⟨L, by simp [hpc], h⟩
  | read j hpc =>
    have ho : (s.waves w).pc.owns := by simp [hpc, Pc.owns]
    have hflag := (h.wave w).released (by simp [hpc, Pc.released])
    refine ⟨L, ?_, h.setWave ?_ ?_ fun _ => rfl⟩
    · by_cases hj : j + 1 < 8 <;> simp [hj]
    · exact (h.wave w).move ho (by split_ifs <;> rfl) rfl (by rw [hpc]; split_ifs <;> rfl)
        (by split_ifs <;> simp [Pc.armed]) (fun _ => hflag) (by split_ifs <;> simp)
    · rw [hpc]
      split_ifs <;> rfl

end Aomp.Hostexec
