import Aomp.Hostexec.PacketOwnership
import Aomp.Hostexec.ServiceThread

/-!
# No lost wake-up

The service thread samples the doorbell before it scans the buffers, and a wave pushes its
packet before it rings. A packet that lands behind the scan is therefore announced by an
addition after the sample, unless its wave has not rung yet.
-/
namespace Aomp.Hostexec

open Foundations

section

variable {cfg : Config} {s s' : State cfg} {w : Fin cfg.waves} {L : Lists}

/-- A wave moves only its own registers, and it adds to the doorbell when it rings. -/
theorem waveStep_bell (h : waveStep s w = some s') :
    s'.consumer = s.consumer ∧ (∀ v, v ≠ w → s'.waves v = s.waves v) ∧
      s'.buf.doorbell =
        s.buf.doorbell + BitVec.ofNat 64 (if (s.waves w).pc = .ring then 1 else 0) := by
  have hother : ∀ (t : Wave) v, v ≠ w → Function.update s.waves w t v = s.waves v :=
    fun t v hv => Function.update_of_ne hv _ _
  cases waveStep_cases h with
  | ring hpc => exact ⟨rfl, hother _, by simp [hpc]⟩
  | spin hpc => exact ⟨rfl, fun _ _ => rfl, by simp [hpc]⟩
  | popTake hpc | pushReady hpc | pushFree hpc =>
    exact ⟨rfl, hother _, by simp [hpc, Buffer.setTop]⟩
  | popLoad hpc | popNext hpc | popRetry hpc | fillHeader hpc | fillWord _ hpc | pushLoad _ hpc
  | pushLink _ hpc | pushRetry _ hpc | answered hpc | read _ hpc =>
    exact ⟨rfl, hother _, by simp [hpc]⟩

theorem hostStep_bell {out : Slot} (h : hostStep s out = some s') :
    s'.waves = s.waves ∧ s'.buf.doorbell = s.buf.doorbell := by
  cases hostStep_cases h <;> exact ⟨rfl, rfl⟩

theorem Inv.setDoorbell (h : Inv s L) (d : Word) :
    Inv (s.setBuf { s.buf with doorbell := d }) L :=
  ⟨h.size, h.free, h.ready, h.consumer, h.nodup, h.lt, h.wave, h.holding⟩

end

variable {ι : Type} [DecidableEq ι] {cfg : ι → Config} {p p' : Process cfg}

namespace Process

/-- The scan that follows the last sample still has to grab this ready stack. -/
def Todo (p : Process cfg) (b : ι) : Prop :=
  match p.loop with
  | .waiting => False
  | .woken | .exited => True
  | .scanning [] => False
  | .scanning (c :: rest) => b ∈ rest ∨ b = c ∧ (p.memory c).consumer.pc = .idle

/-- Fewer than `2 ^ 64` additions between two waits, and no termination. -/
def NoBellWrap (p : Process cfg) : ProcessAction cfg → Prop
  | .wave b w => ((p.memory b).waves w).pc = .ring → p.rung + 1 < 2 ^ 64
  | .terminate => False
  | _ => True

/-- The invariant of the service loop: a ready stack that the scan has left behind holds
packets of waves that are about to ring, or somebody has rung since the sample. -/
structure Announced (p : Process cfg) : Prop where
  bell : p.doorbell = p.signal_value + BitVec.ofNat 64 p.rung
  rung_lt : p.rung < 2 ^ 64
  running : p.terminate = .running
  kept : ∀ b, p.discarded b = false
  assigned : ∀ b ∈ p.assigned, b ∈ p.buffers
  hsaq_bufs : ∀ b ∈ p.assigned, b ∈ p.hsaq_bufs
  unassigned : ∀ b, b ∉ p.assigned → p.posted b = []
  idle : ∀ b, (∀ rest, p.loop ≠ .scanning (b :: rest)) → (p.memory b).consumer.pc = .idle
  heard : ∀ b, p.Todo b ∨ p.rung ≠ 0 ∨ ∀ w ∈ p.posted b, ((p.memory b).waves w).pc = .ring

omit [DecidableEq ι] in
theorem announced_init (cfg : ι → Config) (raw : ι → Buffer) : (init cfg raw).Announced where
  bell := by simp [init]
  rung_lt := by simp [init]
  running := rfl
  kept _ := rfl
  assigned := by simp [init]
  hsaq_bufs := by simp [init]
  unassigned _ _ := rfl
  idle _ _ := rfl
  heard b := .inr (.inr (by simp [init]))

omit [DecidableEq ι] in
theorem todo_congr (p p' : Process cfg) (hloop : p'.loop = p.loop)
    (hpc : ∀ c, (p'.memory c).consumer.pc = (p.memory c).consumer.pc) (b : ι) :
    p'.Todo b ↔ p.Todo b := by
  unfold Todo
  rw [hloop]
  split <;> simp only [hpc]

theorem setMemory_consumer {b : ι} {t : State (cfg b)} (ht : t.consumer = (p.memory b).consumer)
    (c : ι) : ((p.setMemory b t).memory c).consumer = (p.memory c).consumer := by
  by_cases hc : c = b
  · subst hc
    simpa using ht
  · simp [Function.update_of_ne hc]

namespace Announced

theorem assign (h : p.Announced) {b : ι} {raw : Buffer} (hlock : p.locked = false) :
    Announced { p.registerBuffer b raw with
      hsaq_bufs := p.hsaq_bufs ++ [b], assigned := b :: p.assigned } := by
  have hinit : (State.init (cfg b) raw).consumer.pc = .idle := rfl
  have hmem : ∀ c, (p.memory c).consumer.pc = .idle := by
    intro c
    apply h.idle c
    intro rest hloop
    simp [locked, hloop] at hlock
  have hmem' : ∀ c, ((p.registerBuffer b raw).memory c).consumer.pc = .idle := by
    intro c
    by_cases hc : c = b
    · subst hc
      simp [registerBuffer, hinit]
    · simp [registerBuffer, Function.update_of_ne hc, hmem c]
  refine ⟨h.bell, h.rung_lt, h.running, fun c => ?_, fun c hc => ?_, fun c hc => ?_, fun c hc => ?_,
    fun c _ => hmem' c, fun c => ?_⟩
  · by_cases hc : c = b
    · simp [registerBuffer, hc]
    · simp [registerBuffer, Function.update_of_ne hc, h.kept c]
  · by_cases hcb : c = b
    · simp only [registerBuffer, hcb]
      split_ifs with hmem
      · exact hmem
      · exact List.mem_cons_self
    · have hc := h.assigned c ((List.mem_cons.mp hc).resolve_left hcb)
      simp only [registerBuffer]
      split_ifs
      · exact hc
      · exact List.mem_cons_of_mem _ hc
  · rcases List.mem_cons.mp hc with rfl | hc
    · simp
    · exact List.mem_append_left _ (h.hsaq_bufs c hc)
  · simp only [List.mem_cons, not_or] at hc
    simp [registerBuffer, Function.update_of_ne hc.1, h.unassigned c hc.2]
  · by_cases hc : c = b
    · subst hc
      exact .inr (.inr (by simp [registerBuffer]))
    · have htodo := todo_congr p { p.registerBuffer b raw with
        hsaq_bufs := p.hsaq_bufs ++ [b], assigned := b :: p.assigned } rfl
        (fun c => (hmem' c).trans (hmem c).symm) c
      rw [htodo]
      simpa [registerBuffer, Function.update_of_ne hc] using h.heard c

/-- A step of the device on buffer `b`. -/
theorem device (h : p.Announced) {b : ι} (hb : b ∈ p.assigned) {t : State (cfg b)} {rings : ℕ}
    (posts : List (Fin (cfg b).waves)) (hconsumer : t.consumer = (p.memory b).consumer)
    (hbell : t.buf.doorbell = p.doorbell + BitVec.ofNat 64 rings) (hlt : p.rung + rings < 2 ^ 64)
    (hposts : rings = 0 → (∀ w ∈ p.posted b, ((p.memory b).waves w).pc = .ring) →
      ∀ w ∈ posts, (t.waves w).pc = .ring) :
    Announced { p.setMemory b t with
      posted := Function.update p.posted b posts
      rung := p.rung + rings
      added := p.added + rings } := by
  have hcons := setMemory_consumer (p := p) hconsumer
  refine ⟨?_, hlt, h.running, h.kept, h.assigned, h.hsaq_bufs, fun c hc => ?_, fun c hc => ?_,
    fun c => ?_⟩
  · show t.buf.doorbell = p.signal_value + BitVec.ofNat 64 (p.rung + rings)
    rw [hbell, BitVec.ofNat_add, ← BitVec.add_assoc, ← h.bell]
  · have hne : c ≠ b := by
      rintro rfl
      exact hc hb
    simp [Function.update_of_ne hne, h.unassigned c hc]
  · show ((p.setMemory b t).memory c).consumer.pc = _
    rw [hcons]
    exact h.idle c hc
  · have htodo := todo_congr p { p.setMemory b t with
      posted := Function.update p.posted b posts, rung := p.rung + rings, added := p.added + rings }
      rfl (fun c => congrArg Consumer.pc (hcons c)) c
    rw [htodo]
    apply (h.heard c).imp_right
    intro hheard
    show p.rung + rings ≠ 0 ∨ _
    by_cases hrings : rings = 0
    · apply hheard.imp (by omega)
      intro hring
      by_cases hc : c = b
      · subst hc
        simpa using hposts hrings hring
      · simpa [Function.update_of_ne hc] using hring
    · exact .inl (by omega)

theorem invoke (h : p.Announced) {b : ι} {w : Fin (cfg b).waves} {req : Request}
    (hs : processStep p (.invoke b w req) = some p') : p'.Announced := by
  obtain ⟨hb, hs⟩ := Option.ite_none_right_eq_some.mp hs
  obtain ⟨t, ht, rfl⟩ := Option.map_eq_some_iff.mp hs
  cases step_cases ht with
  | invoke _ _ hpc =>
    have hdevice := h.device hb (t := { p.shared b with
      calls := (p.shared b).calls + 1 }.setWave w { (p.shared b).waves w with
        pc := .pop .load, req := req, call := (p.shared b).calls }) (p.posted b)
      rfl (BitVec.add_zero _).symm h.rung_lt fun _ hring v hv => by
        have hne : v ≠ w := by
          rintro rfl
          have hidle : ((p.memory b).waves v).pc = .idle := hpc
          rw [hring v hv] at hidle
          cases hidle
        simpa [Function.update_of_ne hne, shared] using hring v hv
    rwa [Function.update_eq_self] at hdevice

theorem wave (h : p.Announced) {b : ι} {w : Fin (cfg b).waves} (hok : p.NoBellWrap (.wave b w))
    (hs : processStep p (.wave b w) = some p') : p'.Announced := by
  obtain ⟨hb, hs⟩ := Option.ite_none_right_eq_some.mp hs
  obtain ⟨t, ht, rfl⟩ := Option.map_eq_some_iff.mp hs
  obtain ⟨hconsumer, hother, hbell⟩ := waveStep_bell ht
  have hposted : (if (t.waves w).pc = .ring then Function.update p.posted b (w :: p.posted b)
      else p.posted) = Function.update p.posted b
        (if (t.waves w).pc = .ring then w :: p.posted b else p.posted b) := by
    split_ifs
    · rfl
    · rw [Function.update_eq_self]
  rw [hposted]
  refine h.device hb _ hconsumer hbell ?_ fun hrings hring v hv => ?_
  · split_ifs with hpc
    · exact hok hpc
    · exact h.rung_lt
  · have hpc : ((p.memory b).waves w).pc ≠ .ring := by
      intro hpc
      simp [hpc] at hrings
    by_cases hvw : v = w
    · subst hvw
      split_ifs at hv with hpost
      · exact hpost
      · exact absurd (hring v hv) hpc
    · rw [hother v hvw]
      apply hring v
      split_ifs at hv
      · exact (List.mem_cons.mp hv).resolve_left hvw
      · exact hv

theorem wait (h : p.Announced) (hs : processStep p .wait = some p') : p'.Announced := by
  simp only [processStep] at hs
  split_ifs at hs with hloop hdone
  all_goals
    obtain rfl := Option.some.inj hs
    have hidle : ∀ c, (p.memory c).consumer.pc = .idle := fun c => h.idle c (by simp [hloop])
    exact ⟨(BitVec.add_zero _).symm, by simp, h.running, h.kept, h.assigned, h.hsaq_bufs,
      h.unassigned, fun c _ => hidle c, fun c => .inl trivial⟩

theorem lock (h : p.Announced) {order : List ι} (hs : processStep p (.lock order) = some p') :
    p'.Announced := by
  simp only [processStep] at hs
  split_ifs at hs with hlock
  obtain ⟨hloop, hperm⟩ := hlock
  obtain rfl := Option.some.inj hs
  have hidle : ∀ c, (p.memory c).consumer.pc = .idle := fun c => h.idle c (by simp [hloop])
  refine ⟨h.bell, h.rung_lt, h.running, h.kept, h.assigned, h.hsaq_bufs, h.unassigned,
    fun c _ => hidle c, fun c => ?_⟩
  by_cases hc : c ∈ p.assigned
  · have hmem := hperm.mem_iff.mpr (h.assigned c hc)
    left
    cases order with
    | nil => cases hmem
    | cons b rest =>
      rcases List.mem_cons.mp hmem with rfl | hmem
      · exact .inr ⟨rfl, hidle c⟩
      · exact .inl hmem
  · exact .inr (.inr (by simp [h.unassigned c hc]))

/-- The scan grabs a ready stack or goes on with what it grabbed. -/
theorem host (h : p.Announced) {out : Slot} (hs : scanStep p out = some p') : p'.Announced := by
  cases scanStep_cases hs with
  | unlock hloop =>
    refine ⟨h.bell, h.rung_lt, h.running, h.kept, h.assigned, h.hsaq_bufs, h.unassigned,
      fun c _ => h.idle c (by simp [hloop]), fun c => ?_⟩
    have hheard := h.heard c
    simpa [Todo, hloop] using hheard
  | erase b rest hloop hdiscarded => simp [h.kept b] at hdiscarded
  | serve b rest t hloop hkept ht =>
    obtain ⟨hwaves, hbell⟩ := hostStep_bell ht
    have hother : ∀ c, c ≠ b → (p.memory c).consumer.pc = .idle :=
      fun c hc => h.idle c fun r => by simp [hloop, Ne.symm hc]
    have hpc : ∀ c, t.consumer.pc = .idle ∨ c ≠ b →
        ((p.setMemory b t).memory c).consumer.pc = .idle := by
      intro c hc
      by_cases hcb : c = b
      · subst hcb
        simpa using hc
      · simp [Function.update_of_ne hcb, hother c hcb]
    refine ⟨hbell.trans h.bell, h.rung_lt, h.running, h.kept, h.assigned, h.hsaq_bufs,
      fun c hc => ?_, fun c hc => ?_, fun c => ?_⟩
    · show (if _ then _ else _ : (b : ι) → List _) c = []
      split_ifs
      · by_cases hcb : c = b
        · subst hcb
          simp
        · rw [Function.update_of_ne hcb, h.unassigned c hc]
      · exact h.unassigned c hc
    · apply hpc c
      by_cases ht : t.consumer.pc = .idle
      · exact .inl ht
      · right
        rintro rfl
        exact hc rest (by simp [ht])
    · have hrest : c ∈ rest → Todo { p.setMemory b t with
          posted := if (p.memory b).consumer.pc = .idle then Function.update p.posted b []
            else p.posted
          loop := .scanning (if t.consumer.pc = .idle then rest else b :: rest) } c := by
        intro hc
        by_cases ht : t.consumer.pc = .idle
        · obtain ⟨d, rest', rfl⟩ := List.exists_cons_of_ne_nil (List.ne_nil_of_mem hc)
          simp only [Todo, if_pos ht]
          exact (List.mem_cons.mp hc).symm.imp_right fun hd => ⟨hd, hpc d (.inl ht)⟩
        · simp only [Todo, if_neg ht]
          exact .inl hc
      by_cases hcb : c = b
      · subst hcb
        by_cases hidle : (p.memory c).consumer.pc = .idle
        · exact .inr (.inr (by simp [hidle]))
        · refine (h.heard c).imp (fun htodo => hrest ?_) (Or.imp_right fun hring => ?_)
          · simpa [Todo, hloop, hidle] using htodo
          · simpa [hidle, hwaves, shared] using hring
      · refine (h.heard c).imp (fun htodo => hrest ?_) (Or.imp_right fun hring => ?_)
        · simpa [Todo, hloop, hcb] using htodo
        · by_cases hidle : (p.memory b).consumer.pc = .idle
          · simpa [hidle, Function.update_of_ne hcb] using hring
          · simpa [hidle, Function.update_of_ne hcb] using hring

theorem step (h : p.Announced) {a : ProcessAction cfg} (hok : p.NoBellWrap a)
    (hs : processStep p a = some p') : p'.Announced := by
  cases a with
  | assign b raw =>
    obtain ⟨-, hs⟩ := Option.ite_none_right_eq_some.mp hs
    split_ifs at hs with hb hlock
    · exact Option.some.inj hs ▸ h
    · exact Option.some.inj hs ▸ h.assign (Bool.eq_false_iff.mpr hlock)
  | invoke b w req => exact h.invoke hs
  | wave b w => exact h.wave hok hs
  | wait => exact h.wait hs
  | lock order => exact h.lock hs
  | host out => exact h.host hs
  | terminate => exact hok.elim

omit [DecidableEq ι] in
theorem rung_eq_zero (h : p.Announced) (hbell : p.doorbell = p.signal_value) : p.rung = 0 := by
  have hzero : BitVec.ofNat 64 p.rung = 0#64 := by
    have := h.bell
    rw [hbell] at this
    exact BitVec.self_eq_add_right.mp this
  have hmod := congrArg BitVec.toNat hzero
  rwa [BitVec.toNat_ofNat, Nat.mod_eq_of_lt h.rung_lt] at hmod

end Announced

end Process

/-- The waves `posts` pushed the packets of the ready stack. -/
structure Posts {cfg : Config} (s : State cfg) (L : Lists) (posts : List (Fin cfg.waves)) : Prop where
  mem : ∀ w ∈ posts, (s.waves w).pc.owns ∧ cfg.index (s.waves w).packet_ptr ∈ L.ready
  cover : ∀ i ∈ L.ready, ∃ w ∈ posts, cfg.index (s.waves w).packet_ptr = i

section

variable {cfg : Config} {s s' : State cfg} {w : Fin cfg.waves} {L : Lists}
  {posts : List (Fin cfg.waves)}

theorem waveStep_packet (h : WaveCase s w s') :
    ((s.waves w).pc.owns → (s'.waves w).packet_ptr = (s.waves w).packet_ptr ∧
      ((s'.waves w).pc.owns ∨ (s.waves w).pc.released)) ∧
    ((s'.waves w).pc = .ring → (s.waves w).pc.owns) := by
  cases h with
  | fillWord j hpc | read j hpc => by_cases hj : j + 1 < 8 <;> simp [hpc, hj, Pc.owns]
  | _ => simp_all [Pc.owns, Pc.released]

theorem Posts.waveStep (h : Posts s L posts) (hinv : Inv s L) (hwrap : NoTagWrap s)
    (hs : waveStep s w = some s') : ∃ L', Inv s' L' ∧
      Posts s' L' (if (s'.waves w).pc = .ring then w :: posts else posts) := by
  obtain ⟨hkeeps, hrings⟩ := waveStep_packet (waveStep_cases hs)
  obtain ⟨L', hready, hinv'⟩ := hinv.waveStep hwrap (waveStep_cases hs)
  have hother := (waveStep_bell hs).2.1
  have hsub : ∀ i ∈ L.ready, i ∈ L'.ready := by
    intro i hi
    rw [hready]
    split_ifs
    · exact List.mem_cons_of_mem _ hi
    · exact hi
  -- a wave that posted has not seen READY cleared while its packet is on the ready stack
  have hkeep : ∀ v ∈ posts, (s'.waves v).pc.owns ∧
      (s'.waves v).packet_ptr = (s.waves v).packet_ptr := by
    intro v hv
    obtain ⟨ho, hi⟩ := h.mem v hv
    by_cases hvw : v = w
    · subst hvw
      obtain ⟨hptr, howns⟩ := hkeeps ho
      refine ⟨howns.resolve_right fun hreleased => ?_, hptr⟩
      have hlisted := ((hinv.wave v).listed ho).mp (List.mem_append_left _ hi)
      rw [(hinv.wave v).released hreleased] at hlisted
      exact absurd hlisted.2 (by decide)
    · rw [hother v hvw]
      exact ⟨ho, rfl⟩
  refine ⟨L', hinv', ?_⟩
  by_cases hring : (s'.waves w).pc = .ring
  · rw [if_pos hring] at hready ⊢
    have hptr := (hkeeps (hrings hring)).1
    constructor
    · intro v hv
      rcases List.mem_cons.mp hv with rfl | hv
      · exact ⟨by rw [hring]; rfl, by rw [hptr, hready]; exact List.mem_cons_self⟩
      · rw [(hkeep v hv).2]
        exact ⟨(hkeep v hv).1, hsub _ (h.mem v hv).2⟩
    · intro i hi
      rw [hready] at hi
      rcases List.mem_cons.mp hi with rfl | hi
      · exact ⟨w, List.mem_cons_self, by rw [hptr]⟩
      · obtain ⟨v, hv, hidx⟩ := h.cover i hi
        exact ⟨v, List.mem_cons_of_mem _ hv, by rw [(hkeep v hv).2, hidx]⟩
  · rw [if_neg hring] at hready ⊢
    constructor
    · intro v hv
      rw [(hkeep v hv).2]
      exact ⟨(hkeep v hv).1, hsub _ (h.mem v hv).2⟩
    · intro i hi
      obtain ⟨v, hv, hidx⟩ := h.cover i (hready ▸ hi)
      exact ⟨v, hv, by rw [(hkeep v hv).2, hidx]⟩

theorem Posts.hostStep (h : Posts s L posts) (hinv : Inv s L) {out : Slot}
    (hs : hostStep s out = some s') : ∃ L', Inv s' L' ∧
      Posts s' L' (if s.consumer.pc = .idle then [] else posts) := by
  obtain ⟨L', hready, hinv'⟩ := hinv.hostStep (hostStep_cases hs)
  have hwaves := (hostStep_bell hs).1
  refine ⟨L', hinv', ?_⟩
  split_ifs at hready ⊢
  · exact ⟨by simp, by simp [hready]⟩
  · exact ⟨by simpa only [hwaves, hready] using h.mem, by simpa only [hwaves, hready] using h.cover⟩

end

namespace Process

def Stacked (p : Process cfg) : Prop :=
  ∀ b, ∃ L, Inv (p.memory b) L ∧ Posts (p.memory b) L (p.posted b)

theorem Stacked.update (h : p.Stacked) {b : ι} {t : State (cfg b)}
    (posts : List (Fin (cfg b).waves)) (ht : ∃ L, Inv t L ∧ Posts t L posts) (c : ι) :
    ∃ L, Inv (Function.update p.memory b t c) L ∧
      Posts (Function.update p.memory b t c) L (Function.update p.posted b posts c) := by
  by_cases hc : c = b
  · subst hc
    simpa using ht
  · simpa [Function.update_of_ne hc] using h c

omit [DecidableEq ι] in
theorem stacked_init (cfg : ι → Config) (raw : ι → Buffer) : (init cfg raw).Stacked :=
  fun b => ⟨_, Inv.init (cfg b) (raw b), by simp [init], by simp⟩

theorem terminateStep_memory (hs : terminateStep p = some p') :
    p'.memory = p.memory ∧ p'.posted = p.posted := by
  cases terminateStep_cases hs <;> exact ⟨rfl, rfl⟩

/-- A step keeps what the memory says, as long as no tag comes round during a `pop`. -/
theorem Stacked.step (h : p.Stacked) (hwrap : ∀ b, NoTagWrap (p.memory b)) {a : ProcessAction cfg}
    (hs : processStep p a = some p') : p'.Stacked := by
  cases a with
  | assign b raw =>
    obtain ⟨-, hs⟩ := Option.ite_none_right_eq_some.mp hs
    split_ifs at hs with hb hlock
    · exact Option.some.inj hs ▸ h
    · obtain rfl := Option.some.inj hs
      exact h.update _ ⟨_, Inv.init (cfg b) raw, by simp, by simp⟩
  | invoke b w req =>
    obtain ⟨-, hs⟩ := Option.ite_none_right_eq_some.mp hs
    obtain ⟨t, ht, rfl⟩ := Option.map_eq_some_iff.mp hs
    cases step_cases ht with
    | invoke _ _ hpc =>
      obtain ⟨L, hinv, hposts⟩ := h b
      have hne : ∀ v ∈ p.posted b, v ≠ w := by
        rintro v hv rfl
        have hidle : ((p.memory b).waves v).pc = .idle := hpc
        simpa [hidle, Pc.owns] using (hposts.mem v hv).1
      have hupdate := h.update (p.posted b)
        ⟨L, (hinv.setDoorbell p.doorbell).invoke (n := (p.shared b).calls + 1) hpc
          (t := { (p.shared b).waves w with pc := .pop .load, req := req, call := (p.shared b).calls })
          rfl, ?_, ?_⟩
      · rwa [Function.update_eq_self] at hupdate
      · intro v hv
        simpa [Function.update_of_ne (hne v hv)] using hposts.mem v hv
      · intro i hi
        obtain ⟨v, hv, hidx⟩ := hposts.cover i hi
        exact ⟨v, hv, by simpa [Function.update_of_ne (hne v hv)] using hidx⟩
  | wave b w =>
    obtain ⟨-, hs⟩ := Option.ite_none_right_eq_some.mp hs
    obtain ⟨t, ht, rfl⟩ := Option.map_eq_some_iff.mp hs
    obtain ⟨L, hinv, hposts⟩ := h b
    have hshared : Posts (p.shared b) L (p.posted b) := ⟨hposts.mem, hposts.cover⟩
    have hupdate := h.update _ (hshared.waveStep (hinv.setDoorbell p.doorbell) (hwrap b) ht)
    intro c
    by_cases hring : (t.waves w).pc = .ring
    · simpa [hring] using hupdate c
    · simpa [hring] using hupdate c
  | wait =>
    obtain ⟨-, hs⟩ := Option.ite_none_right_eq_some.mp hs
    obtain rfl := Option.some.inj hs
    exact h
  | lock order =>
    obtain ⟨-, hs⟩ := Option.ite_none_right_eq_some.mp hs
    obtain rfl := Option.some.inj hs
    exact h
  | host out =>
    cases scanStep_cases hs with
    | unlock hloop => exact h
    | erase b rest hloop hdiscarded => exact h
    | serve b rest t hloop hkept ht =>
      obtain ⟨L, hinv, hposts⟩ := h b
      have hshared : Posts (p.shared b) L (p.posted b) := ⟨hposts.mem, hposts.cover⟩
      have hupdate := h.update _ (hshared.hostStep (hinv.setDoorbell p.doorbell) ht)
      intro c
      by_cases hidle : (p.memory b).consumer.pc = .idle
      · simpa [hidle, shared] using hupdate c
      · simpa [hidle, shared] using hupdate c
  | terminate =>
    obtain ⟨hmemory, hposted⟩ := terminateStep_memory hs
    intro b
    rw [hmemory, hposted]
    exact h b

/-- Runs without termination in which the doorbell does not come round between two waits. -/
def Reaches (raw : ι → Buffer) (p : Process cfg) : Prop :=
  Reachable processStep NoBellWrap (init cfg raw) p

/-- Runs in which no tag of a free stack comes round during a `pop`. -/
def ReachesTagged (raw : ι → Buffer) (p : Process cfg) : Prop :=
  Reachable processStep (fun p _ => ∀ b, NoTagWrap (p.memory b)) (init cfg raw) p

theorem Reaches.announced {raw : ι → Buffer} (h : p.Reaches raw) : p.Announced :=
  Reachable.invariant h (announced_init cfg raw) fun _ _ _ hp hok hs => hp.step hok hs

theorem ReachesTagged.stacked {raw : ι → Buffer} (h : p.ReachesTagged raw) : p.Stacked :=
  Reachable.invariant h (stacked_init cfg raw) fun _ _ _ hp hok hs => hp.step hok hs

omit [DecidableEq ι] in
theorem Stacked.at_ready_iff (h : p.Stacked) {b : ι} {i : ℕ} : (p.memory b).At i .ready ↔
    ∃ w ∈ p.posted b, (p.memory b).Holds w i := by
  obtain ⟨L, hinv, hposts⟩ := h b
  rw [hinv.at_ready_iff]
  constructor
  · intro hi
    obtain ⟨w, hw, hidx⟩ := hposts.cover i hi
    exact ⟨w, hw, hinv.holds_iff.mpr ⟨(hposts.mem w hw).1, hidx⟩⟩
  · rintro ⟨w, hw, hholds⟩
    rw [← (hinv.holds_iff.mp hholds).2]
    exact (hposts.mem w hw).2

/-- Where the service thread waits and the doorbell is what it last returned, every wave that
pushed on a ready stack since that stack was last grabbed has not rung yet; read from memory,
every packet on a ready stack is held by such a wave. -/
theorem no_lost_wakeup {raw : ι → Buffer} (h : p.Reaches raw) (hloop : p.loop = .waiting)
    (hbell : p.doorbell = p.signal_value) (b : ι) :
    (∀ w ∈ p.posted b, ((p.memory b).waves w).pc = .ring) ∧
    (p.ReachesTagged raw → ∀ i, (p.memory b).At i .ready →
      ∃ w ∈ p.posted b, (p.memory b).Holds w i ∧ ((p.memory b).waves w).pc = .ring) := by
  have hannounced := h.announced
  have hposted : ∀ w ∈ p.posted b, ((p.memory b).waves w).pc = .ring := by
    rcases hannounced.heard b with htodo | hrung | hposted
    · simp [Todo, hloop] at htodo
    · exact absurd (hannounced.rung_eq_zero hbell) hrung
    · exact hposted
  refine ⟨hposted, fun htagged i hi => ?_⟩
  obtain ⟨w, hw, hholds⟩ := htagged.stacked.at_ready_iff.mp hi
  exact ⟨w, hw, hholds, hposted w hw⟩

instance (p : Process cfg) (a : ProcessAction cfg) : Decidable (p.NoBellWrap a) :=
  match a with
  | .wave b w => inferInstanceAs (Decidable
      (((p.memory b).waves w).pc = .ring → p.rung + 1 < 2 ^ 64))
  | .terminate => inferInstanceAs (Decidable False)
  | .assign .. | .invoke .. | .wait | .lock _ | .host _ => inferInstanceAs (Decidable True)

abbrev twoQueues : Fin 2 → Config := fun _ => twoWaves

def lateRing : List (ProcessAction twoQueues) :=
  let req : Request := ⟨HOSTEXEC_SID_VOID, 5, fun _ _ => 7, twoLanes_active⟩
  [.assign 0 zeroed, .assign 1 zeroed, .wait, .lock [1, 0], .host fun _ => 0, .host fun _ => 0,
    .invoke 0 1 req, .wave 0 1, .wave 0 1, .host fun _ => 0] ++ List.replicate 13 (.wave 0 1)

theorem no_lost_wakeup_lateRing : ∃ p : Process twoQueues, p.Reaches (fun _ => zeroed) ∧
    p.loop = .waiting ∧ p.doorbell = p.signal_value ∧ p.posted 0 = [1] ∧
    ∀ w ∈ p.posted 0, ((p.memory 0).waves w).pc = .ring := by
  have hrun : (runChecked processStep (fun p a => decide (p.NoBellWrap a))
      (init twoQueues fun _ => zeroed) lateRing).map
        (fun p => (p.loop, decide (p.doorbell = p.signal_value), p.posted 0)) =
          some (.waiting, true, [1]) := by
    decide +kernel
  obtain ⟨p, hp, hstate⟩ := Option.map_eq_some_iff.mp hrun
  simp only [Prod.mk.injEq] at hstate
  obtain ⟨hloop, hbell, hposted⟩ := hstate
  have hreach : p.Reaches fun _ => zeroed :=
    Reachable.of_runChecked (fun _ _ => of_decide_eq_true) lateRing _ hp
  have hbell : p.doorbell = p.signal_value := of_decide_eq_true hbell
  exact ⟨p, hreach, hloop, hbell, hposted, (no_lost_wakeup hreach hloop hbell 0).1⟩

end Process

end Aomp.Hostexec
