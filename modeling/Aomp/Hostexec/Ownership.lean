import Aomp.Hostexec.Transitions

/-!
# Every packet is in one place

The invariant names three lists: the packets on the free stack, those on the ready
stack and those on the list the consumer grabbed. Every other packet is held by the
one wave that popped it. A `pop` that still has a stale link is harmless: while its
packet has not been recycled since the load, the link it read is right whenever the
packet is on the free stack, and a recycled packet has another tag.
-/
namespace Aomp.Hostexec

open Foundations

variable {cfg : Config}

namespace Config

def is (cfg : Config) : ℕ := indexSize cfg.num_packets

theorem is_lt (cfg : Config) : cfg.is < 64 := (indexSize_le cfg.lt).trans_lt (by norm_num)

/-- The packet a pointer denotes. -/
def index (cfg : Config) (ptr : Word) : ℕ := getPtrIndex ptr cfg.is

theorem fits (cfg : Config) {i : ℕ} (hi : i < cfg.num_packets) : i < 2 ^ cfg.is :=
  hi.trans_le (le_two_pow_indexSize cfg.lt)

/-- The pointer of packet `i` after `r` recyclings. -/
def ptr (cfg : Config) (i r : ℕ) : Word := packetPtr cfg.is i r

theorem index_ptr (cfg : Config) {i : ℕ} (hi : i < cfg.num_packets) (r : ℕ) :
    cfg.index (cfg.ptr i r) = i := getPtrIndex_packetPtr cfg.is_lt (cfg.fits hi) r

theorem ptr_ne_zero (cfg : Config) {i : ℕ} (hi : i < cfg.num_packets) (r : ℕ) :
    cfg.ptr i r ≠ 0#64 := packetPtr_ne_zero cfg.is_lt (cfg.fits hi) r

theorem incPtrTag_ptr (cfg : Config) {i : ℕ} (hi : i < cfg.num_packets) (r : ℕ) :
    incPtrTag (cfg.ptr i r) cfg.is = cfg.ptr i (r + 1) :=
  incPtrTag_packetPtr cfg.is_lt (cfg.fits hi) r

end Config

namespace Pc

def owns : Pc → Bool
  | .idle | .pop _ => false
  | _ => true

/-- The wave has pushed its packet on the ready stack. -/
def posted : Pc → Bool
  | .ring | .wait | .read _ | .push .free _ => true
  | _ => false

def armed : Pc → Bool
  | .fillWord _ | .push .ready _ => true
  | _ => false

def released : Pc → Bool
  | .read _ | .push .free _ => true
  | _ => false

theorem owns_of_armed {pc : Pc} (h : pc.armed) : pc.owns := by
  cases pc <;> first | rfl | simp [armed] at h

theorem owns_of_released {pc : Pc} (h : pc.released) : pc.owns := by
  cases pc <;> first | rfl | simp [released] at h

theorem not_posted_of_armed {pc : Pc} (h : pc.armed) : pc.posted = false := by
  cases pc with
  | fillWord j => rfl
  | push st p => cases st with
    | ready => rfl
    | free => simp [armed] at h
  | _ => simp [armed] at h

end Pc

/-- The packets on the free stack, on the ready stack and on the consumer's list. -/
structure Lists where
  free : List ℕ
  ready : List ℕ
  grabbed : List ℕ

def Lists.listed (L : Lists) : List ℕ := L.ready ++ L.grabbed

section

variable (cfg) (hd : ℕ → Header) (rc : ℕ → ℕ) (L : Lists)

def Chain (p : Word) (xs : List ℕ) : Prop :=
  Linked 0#64 (fun i => cfg.ptr i (rc i)) (fun i => (hd i).next) p xs

def readyFlag (i : ℕ) : BitVec 32 := getReadyFlag (hd i).control

/-- What a wave knows of its packet and of the packet it tries to pop. -/
structure WaveInv (t : Wave) : Prop where
  ptr_eq : t.pc.owns → cfg.index t.packet_ptr < cfg.num_packets ∧
    t.packet_ptr = cfg.ptr (cfg.index t.packet_ptr) (rc (cfg.index t.packet_ptr))
  not_free : t.pc.owns → cfg.index t.packet_ptr ∉ L.free
  listed : t.pc.owns → (cfg.index t.packet_ptr ∈ L.listed ↔
    t.pc.posted ∧ readyFlag hd (cfg.index t.packet_ptr) = 1#32)
  armed : t.pc.armed → readyFlag hd (cfg.index t.packet_ptr) = 1#32
  released : t.pc.released → readyFlag hd (cfg.index t.packet_ptr) = 0#32
  link : ∀ st, t.pc = .push st .cas → (hd (cfg.index t.packet_ptr)).next = t.F
  popF : t.pc = .pop .next ∨ t.pc = .pop .cas → cfg.index t.F < cfg.num_packets ∧
    t.F = cfg.ptr (cfg.index t.F) t.seen ∧ t.seen ≤ rc (cfg.index t.F)
  popN : t.pc = .pop .cas → rc (cfg.index t.F) = t.seen → cfg.index t.F ∈ L.free →
    (hd (cfg.index t.F)).next = t.N

/-- The consumer's list starts at `iter`; once `next` is saved, the tail hangs off it. -/
def ConsumerInv (c : Consumer) : Prop :=
  match c.pc with
  | .idle => L.grabbed = []
  | .loadNext => c.iter ≠ 0#64 ∧ Chain cfg hd rc c.iter L.grabbed
  | _ => ∃ i rest, L.grabbed = i :: rest ∧ c.iter = cfg.ptr i (rc i) ∧ Chain cfg hd rc c.next rest

end

/-- Which wave holds which packet: no packet has two holders, and a packet that is not
free has one. -/
structure Holding (waves : Fin cfg.waves → Wave) (free : List ℕ) : Prop where
  inj : ∀ v v', (waves v).pc.owns → (waves v').pc.owns →
    cfg.index (waves v).packet_ptr = cfg.index (waves v').packet_ptr → v = v'
  cover : ∀ i < cfg.num_packets, i ∉ free →
    ∃ v, (waves v).pc.owns ∧ cfg.index (waves v).packet_ptr = i

structure Inv (s : State cfg) (L : Lists) : Prop where
  size : s.buf.index_size = cfg.is
  free : Chain cfg s.buf.headers s.recycled s.buf.free_stack L.free
  ready : Chain cfg s.buf.headers s.recycled s.buf.ready_stack L.ready
  consumer : ConsumerInv cfg s.buf.headers s.recycled L s.consumer
  nodup : (L.free ++ L.listed).Nodup
  lt : ∀ i ∈ L.free ++ L.listed, i < cfg.num_packets
  wave : ∀ v, WaveInv cfg s.buf.headers s.recycled L (s.waves v)
  holding : Holding s.waves L.free

variable {s s' : State cfg} {L L' : Lists} {hd hd' : ℕ → Header} {rc rc' : ℕ → ℕ}
  {w : Fin cfg.waves} {t : Wave}

theorem Inv.index_eq (h : Inv s L) (ptr : Word) : s.buf.index ptr = cfg.index ptr := by
  rw [Buffer.index, h.size, Config.index]

theorem Chain.congr {p : Word} {xs : List ℕ} (h : Chain cfg hd rc p xs)
    (hrc : ∀ i ∈ xs, rc' i = rc i) (hhd : ∀ i ∈ xs, (hd' i).next = (hd i).next) :
    Chain cfg hd' rc' p xs :=
  Linked.congr h (fun i hi => by rw [hrc i hi]) hhd

theorem ConsumerInv.congr {c : Consumer} (h : ConsumerInv cfg hd rc L c)
    (hg : L'.grabbed = L.grabbed) (hrc : ∀ i ∈ L.grabbed, rc' i = rc i)
    (hhd : ∀ i ∈ L.grabbed, (hd' i).next = (hd i).next) : ConsumerInv cfg hd' rc' L' c := by
  have htail : (∃ i rest, L.grabbed = i :: rest ∧ c.iter = cfg.ptr i (rc i) ∧
      Chain cfg hd rc c.next rest) → ∃ i rest, L'.grabbed = i :: rest ∧
      c.iter = cfg.ptr i (rc' i) ∧ Chain cfg hd' rc' c.next rest := by
    rintro ⟨i, rest, hi, hiter, hrest⟩
    refine ⟨i, rest, hg.trans hi, ?_, hrest.congr ?_ ?_⟩
    · rw [hiter, hrc i (by simp [hi])]
    · exact fun j hj => hrc j (by simp [hi, hj])
    · exact fun j hj => hhd j (by simp [hi, hj])
  unfold ConsumerInv at h ⊢
  cases hpc : c.pc with
  | idle => exact hg.trans (by simpa [hpc] using h)
  | loadNext =>
    simp only [hpc] at h ⊢
    rw [hg]
    exact ⟨h.1, h.2.congr hrc hhd⟩
  | loadMask => exact htail (by simpa [hpc] using h)
  | loadService => exact htail (by simpa [hpc] using h)
  | lane wi => exact htail (by simpa [hpc] using h)
  | sanitize => exact htail (by simpa [hpc] using h)
  | clear => exact htail (by simpa [hpc] using h)

/-- A wave keeps what it knows when its own packet is untouched and a packet that stays
on the free stack without being recycled keeps its link. -/
theorem WaveInv.frame (h : WaveInv cfg hd rc L t)
    (hown : t.pc.owns → rc' (cfg.index t.packet_ptr) = rc (cfg.index t.packet_ptr) ∧
      hd' (cfg.index t.packet_ptr) = hd (cfg.index t.packet_ptr) ∧
      (cfg.index t.packet_ptr ∈ L'.free → cfg.index t.packet_ptr ∈ L.free) ∧
      (cfg.index t.packet_ptr ∈ L'.listed ↔ cfg.index t.packet_ptr ∈ L.listed))
    (hpop : ∀ i, rc i ≤ rc' i ∧ (rc' i = rc i → i ∈ L'.free → i ∈ L.free ∧ hd' i = hd i)) :
    WaveInv cfg hd' rc' L' t where
  ptr_eq ho := by rw [(hown ho).1]; exact h.ptr_eq ho
  not_free ho hf := h.not_free ho ((hown ho).2.2.1 hf)
  listed ho := by
    rw [(hown ho).2.2.2, readyFlag, (hown ho).2.1]
    exact h.listed ho
  armed ha := by
    rw [readyFlag, (hown (Pc.owns_of_armed ha)).2.1]
    exact h.armed ha
  released hr := by
    rw [readyFlag, (hown (Pc.owns_of_released hr)).2.1]
    exact h.released hr
  link st hpc := by
    rw [(hown (by rw [hpc]; rfl)).2.1]
    exact h.link st hpc
  popF hpc := ⟨(h.popF hpc).1, (h.popF hpc).2.1, (h.popF hpc).2.2.trans (hpop _).1⟩
  popN hpc hseen hf := by
    have hle := (h.popF (.inr hpc)).2.2
    have hge := (hpop (cfg.index t.F)).1
    have heq : rc' (cfg.index t.F) = rc (cfg.index t.F) := by omega
    obtain ⟨hfree, hlink⟩ := (hpop _).2 heq hf
    rw [hlink]
    exact h.popN hpc (by omega) hfree

theorem Holding.keep {waves : Fin cfg.waves → Wave} {free : List ℕ} (h : Holding waves free)
    (hown : t.pc.owns = (waves w).pc.owns)
    (hptr : t.pc.owns → t.packet_ptr = (waves w).packet_ptr) :
    Holding (Function.update waves w t) free := by
  have hsame : ∀ v, ((Function.update waves w t) v).pc.owns = (waves v).pc.owns ∧
      ((waves v).pc.owns → (Function.update waves w t v).packet_ptr = (waves v).packet_ptr) := by
    intro v
    by_cases hv : v = w
    · subst hv
      simp only [Function.update_self]
      exact ⟨hown, fun ho => hptr (hown ▸ ho)⟩
    · simp [Function.update_of_ne hv]
  constructor
  · intro v v' hv hv' he
    rw [(hsame v).1] at hv
    rw [(hsame v').1] at hv'
    rw [(hsame v).2 hv, (hsame v').2 hv'] at he
    exact h.inj v v' hv hv' he
  · intro i hi hf
    obtain ⟨v, hv, hidx⟩ := h.cover i hi hf
    exact ⟨v, by rwa [(hsame v).1], by rwa [(hsame v).2 hv]⟩

/-- The wave `w` becomes `t`, which holds the packet that was on top of the free stack. -/
theorem Holding.take {waves : Fin cfg.waves → Wave} {i : ℕ} {free : List ℕ}
    (h : Holding waves (i :: free)) (hfree : ∀ v, (waves v).pc.owns →
      cfg.index (waves v).packet_ptr ∉ i :: free) (hw : (waves w).pc.owns = false)
    (ht : t.pc.owns) (hidx : cfg.index t.packet_ptr = i) :
    Holding (Function.update waves w t) free := by
  constructor
  · intro v v' hv hv' he
    by_cases hvw : v = w <;> by_cases hvw' : v' = w
    · rw [hvw, hvw']
    · subst hvw
      rw [Function.update_self, Function.update_of_ne hvw', hidx] at he
      rw [Function.update_of_ne hvw'] at hv'
      exact absurd (by simp [← he]) (hfree v' hv')
    · subst hvw'
      rw [Function.update_self, Function.update_of_ne hvw, hidx] at he
      rw [Function.update_of_ne hvw] at hv
      exact absurd (by simp [he]) (hfree v hv)
    · rw [Function.update_of_ne hvw] at hv he
      rw [Function.update_of_ne hvw'] at hv' he
      exact h.inj v v' hv hv' he
  · intro k hk hkf
    by_cases hki : k = i
    · exact ⟨w, by rwa [Function.update_self], by rw [Function.update_self, hidx, hki]⟩
    · obtain ⟨v, hv, hvk⟩ := h.cover k hk (by simp [hki, hkf])
      have hvw : v ≠ w := by
        rintro rfl
        simp [hw] at hv
      exact ⟨v, by rwa [Function.update_of_ne hvw], by rwa [Function.update_of_ne hvw]⟩

theorem Holding.drop {waves : Fin cfg.waves → Wave} {i : ℕ} {free : List ℕ}
    (h : Holding waves free) (hidx : cfg.index (waves w).packet_ptr = i)
    (ht : t.pc.owns = false) : Holding (Function.update waves w t) (i :: free) := by
  have hother : ∀ v, (Function.update waves w t v).pc.owns → v ≠ w := by
    rintro v hv rfl
    simp [ht] at hv
  constructor
  · intro v v' hv hv' he
    have hvw := hother v hv
    have hvw' := hother v' hv'
    rw [Function.update_of_ne hvw] at hv he
    rw [Function.update_of_ne hvw'] at hv' he
    exact h.inj v v' hv hv' he
  · intro k hk hkf
    simp only [List.mem_cons, not_or] at hkf
    obtain ⟨v, hv, hvk⟩ := h.cover k hk hkf.2
    have hvw : v ≠ w := by
      rintro rfl
      exact hkf.1 (hvk.symm.trans hidx)
    exact ⟨v, by rwa [Function.update_of_ne hvw], by rwa [Function.update_of_ne hvw]⟩

/-- Where one of at most as many waves holds none, the waves do not hold all packets. -/
theorem exists_not_held (cfg : Config) {w : Fin cfg.waves} (holds : Fin cfg.waves → Prop)
    (idx : Fin cfg.waves → ℕ) (hw : ¬ holds w) :
    ∃ i < cfg.num_packets, ∀ v, holds v → idx v ≠ i := by
  by_contra! hall
  have : Nonempty (Fin cfg.waves) := ⟨w⟩
  choose! holder hholds hidx using hall
  have hmaps : ∀ i ∈ Finset.range cfg.num_packets, holder i ∈ Finset.univ.erase w := by
    intro i hi
    refine Finset.mem_erase.mpr ⟨?_, Finset.mem_univ _⟩
    rintro rfl
    exact hw (hholds i (Finset.mem_range.mp hi))
  have hinj : Set.InjOn holder (Finset.range cfg.num_packets) := by
    intro i hi j hj he
    rw [← hidx i (by simpa using hi), ← hidx j (by simpa using hj), he]
  have hcard := Finset.card_le_card_of_injOn holder hmaps hinj
  rw [Finset.card_range, Finset.card_erase_of_mem (Finset.mem_univ _), Finset.card_univ,
    Fintype.card_fin] at hcard
  have := cfg.waves_le
  have := cfg.pos
  omega

theorem Holding.free_ne_nil {waves : Fin cfg.waves → Wave} {free : List ℕ}
    (h : Holding waves free) (hw : (waves w).pc.owns = false) : free ≠ [] := by
  rintro rfl
  obtain ⟨i, hi, hnone⟩ := exists_not_held cfg (fun v => (waves v).pc.owns)
    (fun v => cfg.index (waves v).packet_ptr) (Bool.eq_false_iff.mp hw)
  obtain ⟨v, hv, hidx⟩ := h.cover i hi List.not_mem_nil
  exact hnone v hv hidx

theorem Inv.setWave (h : Inv s L) (ht : WaveInv cfg s.buf.headers s.recycled L t)
    (hown : t.pc.owns = (s.waves w).pc.owns)
    (hptr : t.pc.owns → t.packet_ptr = (s.waves w).packet_ptr) : Inv (s.setWave w t) L := by
  refine ⟨h.size, h.free, h.ready, h.consumer, h.nodup, h.lt, fun v => ?_, h.holding.keep hown hptr⟩
  by_cases hv : v = w
  · subst hv
    simpa using ht
  · simpa [Function.update_of_ne hv] using h.wave v

/-- A wave writes the header of the packet it holds before handing it to the host, or
after getting it back. -/
theorem Inv.writeHeader (h : Inv s L) (hw : (s.waves w).pc.owns) {ptr : Word} {x : Header}
    (hptr : cfg.index ptr = cfg.index (s.waves w).packet_ptr)
    (hlist : cfg.index (s.waves w).packet_ptr ∉ L.listed)
    (ht : WaveInv cfg (Function.update s.buf.headers (cfg.index ptr) x) s.recycled L t)
    (hown : t.pc.owns = (s.waves w).pc.owns)
    (htptr : t.pc.owns → t.packet_ptr = (s.waves w).packet_ptr) :
    Inv ((s.setBuf (s.buf.setHeader ptr x)).setWave w t) L := by
  rw [← hptr] at hlist
  have hfree : cfg.index ptr ∉ L.free := hptr ▸ (h.wave w).not_free hw
  have hsame : ∀ i, i ≠ cfg.index ptr →
      Function.update s.buf.headers (cfg.index ptr) x i = s.buf.headers i :=
    fun i hi => Function.update_of_ne hi _ _
  have hmem : ∀ {xs : List ℕ}, cfg.index ptr ∉ xs → ∀ i ∈ xs,
      (Function.update s.buf.headers (cfg.index ptr) x i).next = (s.buf.headers i).next := by
    intro xs hxs i hi
    rw [hsame i (by rintro rfl; exact hxs hi)]
  have hhd : (s.buf.setHeader ptr x).headers = Function.update s.buf.headers (cfg.index ptr) x := by
    rw [Buffer.setHeader_headers, h.index_eq]
  simp only [Lists.listed, List.mem_append, not_or] at hlist
  refine ⟨h.size, ?_, ?_, ?_, h.nodup, h.lt, fun v => ?_, h.holding.keep hown htptr⟩
  · simp only [State.setWave_buf, State.setBuf_buf, hhd]
    exact h.free.congr (fun _ _ => rfl) (hmem hfree)
  · simp only [State.setWave_buf, State.setBuf_buf, hhd]
    exact h.ready.congr (fun _ _ => rfl) (hmem hlist.1)
  · simp only [State.setWave_buf, State.setBuf_buf, hhd]
    exact h.consumer.congr rfl (fun _ _ => rfl) (hmem hlist.2)
  · simp only [State.setWave_buf, State.setBuf_buf, hhd, State.setWave_waves,
      State.setWave_recycled, State.setBuf_recycled, State.setBuf_waves]
    by_cases hv : v = w
    · subst hv
      simpa using ht
    · rw [Function.update_of_ne hv]
      refine (h.wave v).frame (fun ho => ⟨rfl, hsame _ fun he => hv ?_, id, Iff.rfl⟩) fun i =>
        ⟨le_rfl, fun _ hi => ⟨hi, hsame i ?_⟩⟩
      · exact h.holding.inj v w ho hw (he.trans hptr)
      · rintro rfl
        exact hfree hi

end Aomp.Hostexec
