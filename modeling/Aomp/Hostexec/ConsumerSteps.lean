import Aomp.Hostexec.WaveSteps

/-!
# The steps of the consumer keep the invariant

The exchange of `grab_ready_stack` moves the whole ready stack to the grabbed list, and
the release of READY drops its head. With the steps of the waves this gives the
invariant in every reachable state.
-/
namespace Aomp.Hostexec

open Foundations

variable {cfg : Config} {s s' : State cfg} {L : Lists} {hd : ℕ → Header} {rc : ℕ → ℕ}
  {c : Consumer} {w : Fin cfg.waves} {out : Slot} {raw : Buffer}

theorem Lists.listed_eq_ready (hL : L.grabbed = []) : L.listed = L.ready := by
  simp [Lists.listed, hL]

theorem ConsumerInv.move {c' : Consumer} (h : ConsumerInv cfg hd rc L c)
    (hpc : c.pc ≠ .idle ∧ c.pc ≠ .loadNext) (hpc' : c'.pc ≠ .idle ∧ c'.pc ≠ .loadNext)
    (hiter : c'.iter = c.iter) (hnext : c'.next = c.next) : ConsumerInv cfg hd rc L c' := by
  unfold ConsumerInv at h ⊢
  split at h
  · exact absurd ‹_› hpc.1
  · exact absurd ‹_› hpc.2
  · split
    · exact absurd ‹_› hpc'.1
    · exact absurd ‹_› hpc'.2
    · rwa [hiter, hnext]

theorem ConsumerInv.head (h : ConsumerInv cfg hd rc L c)
    (hpc : c.pc ≠ .idle ∧ c.pc ≠ .loadNext) :
    ∃ i rest, L.grabbed = i :: rest ∧ c.iter = cfg.ptr i (rc i) ∧ Chain cfg hd rc c.next rest := by
  unfold ConsumerInv at h
  split at h
  · exact absurd ‹_› hpc.1
  · exact absurd ‹_› hpc.2
  · exact h

theorem Inv.grab (h : Inv s L) (hpc : s.consumer.pc = .idle) (htop : s.buf.ready_stack ≠ 0#64) :
    Inv { s.setBuf (s.buf.setTop .ready 0#64) with
      consumer := { s.consumer with pc := .loadNext, iter := s.buf.ready_stack } }
      ⟨L.free, [], L.ready⟩ := by
  have hnil : L.grabbed = [] := by
    have := h.consumer
    simpa [ConsumerInv, hpc] using this
  have hlisted : Lists.listed ⟨L.free, [], L.ready⟩ = L.listed := by
    rw [Lists.listed_eq_ready hnil]
    rfl
  refine ⟨h.size, h.free, rfl, ⟨htop, h.ready⟩, ?_, ?_, fun v => ?_, h.holding⟩
  · rw [hlisted]
    exact h.nodup
  · rw [hlisted]
    exact h.lt
  · exact (h.wave v).frame (fun _ => ⟨rfl, rfl, id, by rw [hlisted]⟩)
      fun _ => ⟨le_rfl, fun _ hi => ⟨hi, rfl⟩⟩

/-- The consumer saves `header->next` before it answers the packet. -/
theorem Inv.loadNext (h : Inv s L) (hpc : s.consumer.pc = .loadNext) :
    Inv { s with
      consumer := { s.consumer with
        pc := .loadMask, next := (s.buf.getHeader s.consumer.iter).next } } L := by
  have hc := h.consumer
  simp only [ConsumerInv, hpc] at hc
  obtain ⟨hne, hchain⟩ := hc
  refine ⟨h.size, h.free, h.ready, ?_, h.nodup, h.lt, h.wave, h.holding⟩
  cases hg : L.grabbed with
  | nil =>
    rw [hg] at hchain
    exact absurd hchain hne
  | cons i rest =>
    rw [hg] at hchain
    obtain ⟨hiter, hrest⟩ := hchain
    have hi : i < cfg.num_packets := h.lt i (by simp [Lists.listed, hg])
    refine ⟨i, rest, hg, hiter, ?_⟩
    have hhead : (s.buf.getHeader s.consumer.iter).next = (s.buf.headers i).next := by
      rw [Buffer.getHeader, h.index_eq, show s.consumer.iter = _ from hiter, cfg.index_ptr hi]
    exact hhead ▸ hrest

theorem Inv.answering (h : Inv s L) {c' : Consumer} {b' : Buffer}
    {log' : List Execution} {reports' : List Report}
    (hpc : s.consumer.pc ≠ .idle ∧ s.consumer.pc ≠ .loadNext)
    (hpc' : c'.pc ≠ .idle ∧ c'.pc ≠ .loadNext)
    (hiter : c'.iter = s.consumer.iter) (hnext : c'.next = s.consumer.next)
    (hbuf : b' = s.buf ∨ ∃ p, b' = s.buf.setPayload s.consumer.iter p) :
    Inv { s with consumer := c', buf := b', log := log', reports := reports' } L := by
  have hc := h.consumer.move hpc hpc' hiter hnext
  rcases hbuf with rfl | ⟨p, rfl⟩
  all_goals exact ⟨h.size, h.free, h.ready, hc, h.nodup, h.lt, h.wave, h.holding⟩

/-- The consumer releases READY and goes on to the packet whose pointer it saved. -/
theorem Inv.clear (h : Inv s L) (hpc : s.consumer.pc = .clear) :
    ∃ L', L'.ready = L.ready ∧ Inv { s with
      buf := s.buf.setHeader s.consumer.iter { s.buf.getHeader s.consumer.iter with
        control := resetReadyFlag (s.buf.getHeader s.consumer.iter).control }
      consumer := { s.consumer with
        iter := s.consumer.next
        pc := if s.consumer.next = 0#64 then .idle else .loadNext } } L' := by
  obtain ⟨i, rest, hg, hiter, hrest⟩ := h.consumer.head (by simp [hpc])
  have hi : i < cfg.num_packets := h.lt i (by simp [Lists.listed, hg])
  have hidx : s.buf.index s.consumer.iter = i := by rw [h.index_eq, hiter, cfg.index_ptr hi]
  set x : Header := { s.buf.getHeader s.consumer.iter with
    control := resetReadyFlag (s.buf.getHeader s.consumer.iter).control } with hx
  have hhd : (s.buf.setHeader s.consumer.iter x).headers = Function.update s.buf.headers i x := by
    rw [Buffer.setHeader_headers, hidx]
  have hnext : ∀ k, (Function.update s.buf.headers i x k).next = (s.buf.headers k).next := by
    intro k
    by_cases hk : k = i
    · subst hk
      simp [hx, Buffer.getHeader, hidx]
    · rw [Function.update_of_ne hk]
  have hsub : ∀ k, k ∈ L.ready ++ rest → k ∈ L.listed := by
    intro k hk
    simp only [Lists.listed, hg, List.mem_append, List.mem_cons] at hk ⊢
    tauto
  have hnd := h.nodup
  simp only [Lists.listed, hg] at hnd
  have hnd' : (i :: (L.free ++ (L.ready ++ rest))).Nodup := by
    rw [← List.append_assoc] at hnd ⊢
    exact List.nodup_middle.mp hnd
  obtain ⟨hout, hkeep⟩ := List.nodup_cons.mp hnd'
  simp only [List.mem_append, not_or] at hout
  refine ⟨⟨L.free, L.ready, rest⟩, rfl, h.size, ?_, ?_, ?_, hkeep, ?_, fun v => ?_, h.holding⟩
  · rw [hhd]
    exact h.free.congr (fun _ _ => rfl) fun k _ => hnext k
  · rw [hhd]
    exact h.ready.congr (fun _ _ => rfl) fun k _ => hnext k
  · rw [hhd]
    have hchain : Chain cfg (Function.update s.buf.headers i x) s.recycled s.consumer.next rest :=
      hrest.congr (fun _ _ => rfl) fun k _ => hnext k
    by_cases hzero : s.consumer.next = 0#64
    · simp only [ConsumerInv, hzero, if_true]
      exact (Linked.eq_nil_iff hchain fun k hk => cfg.ptr_ne_zero
        (h.lt k (by simp [Lists.listed, hg, hk])) _).mpr hzero
    · simp only [ConsumerInv, hzero, if_false]
      exact ⟨hzero, hchain⟩
  · intro k hk
    rcases List.mem_append.mp hk with hk | hk
    · exact h.lt k (by simp [hk])
    · exact h.lt k (List.mem_append.mpr (.inr (hsub k hk)))
  · rw [hhd]
    have hflag : readyFlag (Function.update s.buf.headers i x) i = 0#32 := by simp [readyFlag, hx]
    by_cases hv : (s.waves v).pc.owns ∧ cfg.index (s.waves v).packet_ptr = i
    · obtain ⟨ho, hvi⟩ := hv
      have hwv := h.wave v
      have hposted := ((hwv.listed ho).mp (by simp [hvi, Lists.listed, hg])).1
      exact {
        ptr_eq := hwv.ptr_eq
        not_free := hwv.not_free
        listed := fun _ => by
          rw [hvi, hflag]
          exact iff_of_false (by simpa [Lists.listed] using hout.2) (by simp)
        armed := fun ha => by simp [Pc.not_posted_of_armed ha] at hposted
        released := fun _ => by rw [hvi, hflag]
        link := fun st hst => (hnext _).trans (hwv.link st hst)
        popF := hwv.popF
        popN := fun hp hseen hf => (hnext _).trans (hwv.popN hp hseen hf) }
    · refine (h.wave v).frame (fun ho => ?_) fun k => ⟨le_rfl, fun _ hk => ⟨hk, ?_⟩⟩
      · have hne : cfg.index (s.waves v).packet_ptr ≠ i := fun he => hv ⟨ho, he⟩
        refine ⟨rfl, Function.update_of_ne hne _ _, id, ?_⟩
        simp [Lists.listed, hg, hne]
      · exact Function.update_of_ne (fun e => hout.1 (by rwa [← e])) _ _

/-- A step of the consumer keeps the invariant, and only a grab takes packets off the ready
stack. -/
theorem Inv.hostStep (h : Inv s L) (hs : HostCase s out s') :
    ∃ L', L'.ready = (if s.consumer.pc = .idle then [] else L.ready) ∧ Inv s' L' := by
  cases hs with
  | grabNone hpc htop =>
    have hnil : L.ready = [] := (Linked.eq_nil_iff h.ready fun k hk => cfg.ptr_ne_zero
      (h.lt k (by simp [Lists.listed, hk])) _).mpr htop
    refine ⟨L, by rw [if_pos hpc, hnil], h.size, h.free, ?_, h.consumer, h.nodup, h.lt, h.wave,
      h.holding⟩
    rw [hnil]
    rfl
  | grab hpc htop => exact ⟨_, (if_pos hpc).symm, h.grab hpc htop⟩
  | loadNext hpc => exact ⟨L, by simp [hpc], h.loadNext hpc⟩
  | loadMask hpc =>
    exact ⟨L, by simp [hpc], h.answering (by simp [hpc]) (by simp) rfl rfl (.inl rfl)⟩
  | loadService hpc =>
    exact ⟨L, by simp [hpc],
      h.answering (by simp [hpc]) (by dsimp only; split_ifs <;> simp) rfl rfl (.inl rfl)⟩
  | sanitize hpc =>
    exact ⟨L, by simp [hpc], h.answering (by simp [hpc]) (by simp) rfl rfl (.inl rfl)⟩
  | execute lane hpc =>
    exact ⟨L, by simp [hpc], h.answering (by simp [hpc]) (by simp) rfl rfl (.inr ⟨_, rfl⟩)⟩
  | skip lane hpc =>
    exact ⟨L, by simp [hpc], h.answering (by simp [hpc]) (by simp) rfl rfl (.inl rfl)⟩
  | lanesDone wi hpc =>
    exact ⟨L, by simp [hpc], h.answering (by simp [hpc]) (by simp) rfl rfl (.inl rfl)⟩
  | clear hpc => simpa [hpc] using h.clear hpc

theorem Inv.invoke (h : Inv s L) (hpc : (s.waves w).pc = .idle) {t : Wave}
    (ht : t.pc = .pop .load) {n : ℕ} : Inv ({ s with calls := n }.setWave w t) L := by
  have hmove := h.setWave (w := w) (t := t) (.of_not_owns (by simp [ht, Pc.owns]) (by simp [ht])
    (by simp [ht])) (by rw [ht, hpc]; rfl) (by simp [ht, Pc.owns])
  exact ⟨hmove.size, hmove.free, hmove.ready, hmove.consumer, hmove.nodup, hmove.lt, hmove.wave,
    hmove.holding⟩

theorem Inv.step {a : Action cfg} (h : Inv s L) (hwrap : NoTagWrap s) (hs : step s a = some s') :
    ∃ L', Inv s' L' := by
  cases step_cases hs with
  | invoke w req hpc => exact ⟨L, h.invoke hpc rfl⟩
  | wave w hw => exact (h.waveStep hwrap hw).imp fun _ hL => hL.2
  | host out hh => exact (h.hostStep hh).imp fun _ hL => hL.2

theorem Inv.init (cfg : Config) (raw : Buffer) :
    Inv (State.init cfg raw) ⟨(List.range cfg.num_packets).reverse, [], []⟩ := by
  have hfits := cfg.fits (i := cfg.num_packets - 1) (by have := cfg.pos; omega)
  have hlinked := linked_linkLoop cfg.is cfg.is_lt raw.headers (cfg.num_packets - 1) hfits
  rw [Nat.sub_add_cancel cfg.pos] at hlinked
  refine ⟨rfl, hlinked, rfl, rfl, ?_, ?_, fun v => ?_, ?_, ?_⟩
  · simpa [Lists.listed] using List.nodup_range
  · simp [Lists.listed]
  · exact .of_not_owns rfl (by simp [State.init]) (by simp [State.init])
  · intro v v' hv
    simp [State.init, Pc.owns] at hv
  · intro i hi hf
    simp [hi] at hf

theorem Reaches.inv (h : Reaches raw s) : ∃ L, Inv s L :=
  Reachable.invariant (P := fun s => ∃ L, Inv s L) h ⟨_, Inv.init cfg raw⟩
    fun _ _ _ ⟨_, hinv⟩ hwrap hs => hinv.step hwrap hs

end Aomp.Hostexec
