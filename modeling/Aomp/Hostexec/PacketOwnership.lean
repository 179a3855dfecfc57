import Aomp.Hostexec.ConsumerSteps

/-!
# Packet ownership in every interleaving

The lists of the invariant are read back from the memory and the registers of a state:
both stacks and the consumer's list are walks along `header->next`, so the statement
names no ghost list. A packet is in exactly one of four places.
-/
namespace Aomp.Hostexec

open Foundations

variable {cfg : Config} {s : State cfg} {L : Lists} {raw : Buffer} {i : ℕ}

namespace State

/-- The wave has popped packet `i` and not returned it. -/
def Holds (s : State cfg) (w : Fin cfg.waves) (i : ℕ) : Prop :=
  (s.waves w).pc.owns ∧ s.buf.index (s.waves w).packet_ptr = i

/-- Following `header->next` from `ptr` meets exactly the packets `xs` and then 0. -/
def Walk (s : State cfg) (ptr : Word) (xs : List ℕ) : Prop :=
  Visits 0#64 s.buf.index (fun i => (s.buf.headers i).next) ptr xs

/-- The packets that `process_packets` still has to answer. -/
def ConsumerList (s : State cfg) (xs : List ℕ) : Prop :=
  match s.consumer.pc with
  | .idle => xs = []
  | .loadNext => s.Walk s.consumer.iter xs
  | _ => ∃ rest, xs = s.buf.index s.consumer.iter :: rest ∧ s.Walk s.consumer.next rest

end State

/-- Where a packet can be. -/
inductive Place
  /-- On the free stack. -/
  | free
  /-- Held by a wave before its push on the ready stack. -/
  | held
  /-- On the ready stack. -/
  | ready
  /-- On the consumer's list, or answered and not yet returned. -/
  | served
  deriving DecidableEq

def State.At (s : State cfg) (i : ℕ) : Place → Prop
  | .free => ∃ xs, s.Walk s.buf.free_stack xs ∧ i ∈ xs
  | .held => ∃ w, s.Holds w i ∧ (s.waves w).pc.posted = false
  | .ready => ∃ xs, s.Walk s.buf.ready_stack xs ∧ i ∈ xs
  | .served => (∃ xs, s.ConsumerList xs ∧ i ∈ xs) ∨
      ∃ w, s.Holds w i ∧ (s.waves w).pc.posted ∧ readyFlag s.buf.headers i = 0#32

theorem Inv.holds_iff (h : Inv s L) {w : Fin cfg.waves} :
    s.Holds w i ↔ (s.waves w).pc.owns ∧ cfg.index (s.waves w).packet_ptr = i := by
  rw [State.Holds, h.index_eq]

theorem Inv.walk (h : Inv s L) {p : Word} {xs : List ℕ} (hlt : ∀ k ∈ xs, k < cfg.num_packets)
    (hchain : Chain cfg s.buf.headers s.recycled p xs) : s.Walk p xs :=
  Linked.visits hchain (fun k hk => cfg.ptr_ne_zero (hlt k hk) _) fun k hk => by
    rw [h.index_eq, cfg.index_ptr (hlt k hk)]

theorem Inv.free_walk (h : Inv s L) : s.Walk s.buf.free_stack L.free :=
  h.walk (fun k hk => h.lt k (by simp [hk])) h.free

theorem Inv.ready_walk (h : Inv s L) : s.Walk s.buf.ready_stack L.ready :=
  h.walk (fun k hk => h.lt k (by simp [Lists.listed, hk])) h.ready

theorem Inv.consumerList (h : Inv s L) : s.ConsumerList L.grabbed := by
  have hc := h.consumer
  have hlt : ∀ k ∈ L.grabbed, k < cfg.num_packets := fun k hk =>
    h.lt k (by simp [Lists.listed, hk])
  cases hpc : s.consumer.pc with
  | idle =>
    simp only [ConsumerInv, hpc] at hc
    simp [State.ConsumerList, hpc, hc]
  | loadNext =>
    simp only [ConsumerInv, hpc] at hc
    simpa [State.ConsumerList, hpc] using h.walk hlt hc.2
  | _ =>
    simp only [ConsumerInv, hpc] at hc
    obtain ⟨k, rest, hg, hiter, hrest⟩ := hc
    have hhead : s.buf.index s.consumer.iter = k := by
      rw [h.index_eq, hiter, cfg.index_ptr (hlt k (by simp [hg]))]
    simp only [State.ConsumerList, hpc]
    exact ⟨rest, by rw [hg, hhead], h.walk (fun j hj => hlt j (by simp [hg, hj])) hrest⟩

/-- A state has one consumer list. -/
theorem State.ConsumerList.unique {xs ys : List ℕ} (hx : s.ConsumerList xs)
    (hy : s.ConsumerList ys) : xs = ys := by
  unfold State.ConsumerList at hx hy
  split at hx
  · simp_all
  · simp only [‹s.consumer.pc = _›] at hy
    exact Visits.unique hx hy
  · obtain ⟨xs', rfl, hx'⟩ := hx
    split at hy
    · contradiction
    · contradiction
    · obtain ⟨ys', rfl, hy'⟩ := hy
      rw [Visits.unique hx' hy']

theorem Inv.at_free_iff (h : Inv s L) : s.At i .free ↔ i ∈ L.free := by
  refine ⟨fun ⟨xs, hw, hi⟩ => ?_, fun hi => ⟨L.free, h.free_walk, hi⟩⟩
  rwa [Visits.unique h.free_walk hw]

theorem Inv.at_ready_iff (h : Inv s L) : s.At i .ready ↔ i ∈ L.ready := by
  refine ⟨fun ⟨xs, hw, hi⟩ => ?_, fun hi => ⟨L.ready, h.ready_walk, hi⟩⟩
  rwa [Visits.unique h.ready_walk hw]

theorem Inv.at_served_iff (h : Inv s L) : s.At i .served ↔ i ∈ L.grabbed ∨
    ∃ w, s.Holds w i ∧ (s.waves w).pc.posted ∧ readyFlag s.buf.headers i = 0#32 := by
  refine or_congr ⟨fun ⟨xs, hw, hi⟩ => ?_, fun hi => ⟨L.grabbed, h.consumerList, hi⟩⟩ Iff.rfl
  rwa [h.consumerList.unique hw]

theorem readyFlag_zero_or_one (hd : ℕ → Header) (i : ℕ) :
    readyFlag hd i = 0#32 ∨ readyFlag hd i = 1#32 := by
  rw [readyFlag, getReadyFlag_eq, BitVec.and_one_eq_setWidth_ofBool_getLsbD]
  cases (hd i).control.getLsbD 0 <;> simp

/-- What the holder of a packet says about the consumer's list. -/
theorem Inv.listed_iff_of_holds (h : Inv s L) {w : Fin cfg.waves} (hw : s.Holds w i) :
    i ∈ L.listed ↔ (s.waves w).pc.posted ∧ readyFlag s.buf.headers i = 1#32 := by
  obtain ⟨ho, rfl⟩ := h.holds_iff.mp hw
  exact (h.wave w).listed ho

theorem Inv.holder_unique (h : Inv s L) {w w' : Fin cfg.waves} (hw : s.Holds w i)
    (hw' : s.Holds w' i) : w = w' := by
  obtain ⟨ho, he⟩ := h.holds_iff.mp hw
  obtain ⟨ho', he'⟩ := h.holds_iff.mp hw'
  exact h.holding.inj w w' ho ho' (he.trans he'.symm)

theorem Inv.exists_place (h : Inv s L) (hi : i < cfg.num_packets) : ∃ p, s.At i p := by
  by_cases hf : i ∈ L.free
  · exact ⟨.free, h.at_free_iff.mpr hf⟩
  · obtain ⟨w, hw⟩ := h.holding.cover i hi hf
    have hholds : s.Holds w i := h.holds_iff.mpr hw
    have hlisted := h.listed_iff_of_holds hholds
    cases hp : (s.waves w).pc.posted with
    | false => exact ⟨.held, w, hholds, hp⟩
    | true =>
      rcases readyFlag_zero_or_one s.buf.headers i with hflag | hflag
      · exact ⟨.served, .inr ⟨w, hholds, hp, hflag⟩⟩
      · rcases List.mem_append.mp (hlisted.mpr ⟨hp, hflag⟩) with hr | hg
        · exact ⟨.ready, h.at_ready_iff.mpr hr⟩
        · exact ⟨.served, h.at_served_iff.mpr (.inl hg)⟩

theorem Inv.not_free_of_holds (h : Inv s L) {w : Fin cfg.waves} (hw : s.Holds w i) :
    i ∉ L.free := by
  obtain ⟨ho, rfl⟩ := h.holds_iff.mp hw
  exact (h.wave w).not_free ho

theorem Inv.not_listed_of_mem_free (h : Inv s L) (hi : i ∈ L.free) : i ∉ L.listed := fun hl =>
  (List.nodup_append.mp h.nodup).2.2 i hi i hl rfl

theorem Inv.not_ready_of_mem_grabbed (h : Inv s L) (hi : i ∈ L.grabbed) : i ∉ L.ready := fun hr =>
  (List.nodup_append.mp (List.nodup_append.mp h.nodup).2.1).2.2 i hr i hi rfl

/-- What tells the places apart: the stacks first, then whether a holder has posted. -/
theorem Inv.at_spec (h : Inv s L) {p : Place} (hp : s.At i p) :
    match p with
    | .free => i ∈ L.free
    | .ready => i ∉ L.free ∧ i ∈ L.ready
    | .held => i ∉ L.free ∧ i ∉ L.ready ∧ ∀ w, s.Holds w i → (s.waves w).pc.posted = false
    | .served => i ∉ L.free ∧ i ∉ L.ready ∧ ∃ w, s.Holds w i ∧ (s.waves w).pc.posted := by
  cases p with
  | free => exact h.at_free_iff.mp hp
  | ready =>
    have hr := h.at_ready_iff.mp hp
    exact ⟨fun hf => h.not_listed_of_mem_free hf (by simp [Lists.listed, hr]), hr⟩
  | held =>
    obtain ⟨w, hw, hposted⟩ := hp
    refine ⟨h.not_free_of_holds hw, fun hr => ?_, fun w' hw' => h.holder_unique hw hw' ▸ hposted⟩
    have hl := (h.listed_iff_of_holds hw).mp (by simp [Lists.listed, hr])
    simp [hposted] at hl
  | served =>
    rcases h.at_served_iff.mp hp with hg | ⟨w, hw, hposted, hflag⟩
    · have hl : i ∈ L.listed := by simp [Lists.listed, hg]
      have hf : i ∉ L.free := fun hf => h.not_listed_of_mem_free hf hl
      obtain ⟨w, hw⟩ := h.holding.cover i (h.lt i (by simp [hl])) hf
      have hholds : s.Holds w i := h.holds_iff.mpr hw
      exact ⟨hf, h.not_ready_of_mem_grabbed hg, w, hholds, ((h.listed_iff_of_holds hholds).mp hl).1⟩
    · refine ⟨h.not_free_of_holds hw, fun hr => ?_, w, hw, hposted⟩
      have hl := (h.listed_iff_of_holds hw).mp (by simp [Lists.listed, hr])
      simp [hflag] at hl

theorem Inv.place_unique (h : Inv s L) {p q : Place} (hp : s.At i p) (hq : s.At i q) : p = q := by
  have hp' := h.at_spec hp
  have hq' := h.at_spec hq
  cases p <;> cases q <;> simp only at hp' hq' <;> grind

theorem Inv.stack_walk (h : Inv s L) (st : StackId) :
    ∃ xs, s.Walk (s.buf.top st) xs ∧ xs.Nodup ∧ ∀ i ∈ xs, i < cfg.num_packets := by
  cases st with
  | free => exact ⟨L.free, h.free_walk, (List.nodup_append.mp h.nodup).1,
      fun i hi => h.lt i (by simp [hi])⟩
  | ready => exact ⟨L.ready, h.ready_walk,
      (List.nodup_append.mp (List.nodup_append.mp h.nodup).2.1).1,
      fun i hi => h.lt i (by simp [Lists.listed, hi])⟩

/-- A wave between the start of `pop_free_stack` and its successful compare-and-swap. -/
def Pc.popping : Pc → Bool
  | .pop _ => true
  | _ => false

/-- In every reachable state each packet is in exactly one place, both stacks are acyclic
and end in 0, no packet has two holders, and `pop` finds neither stack nor pointer empty. -/
theorem packet_ownership (cfg : Config) (raw : Buffer) (s : State cfg) (h : Reaches raw s) :
    (∀ i < cfg.num_packets, ∃! p, s.At i p) ∧
    (∀ st, ∃ xs, s.Walk (s.buf.top st) xs ∧ xs.Nodup ∧ ∀ i ∈ xs, i < cfg.num_packets) ∧
    (∀ w w' i, s.Holds w i → s.Holds w' i → w = w') ∧
    (∀ w, (s.waves w).pc.popping → s.buf.free_stack ≠ 0#64) ∧
    (∀ w, (s.waves w).pc = .pop .next ∨ (s.waves w).pc = .pop .cas → (s.waves w).F ≠ 0#64) := by
  obtain ⟨L, hinv⟩ := h.inv
  refine ⟨fun i hi => ?_, hinv.stack_walk, fun w w' i => hinv.holder_unique, fun w hw => ?_,
    fun w hw => ?_⟩
  · obtain ⟨p, hp⟩ := hinv.exists_place hi
    exact ⟨p, hp, fun q hq => hinv.place_unique hq hp⟩
  · apply hinv.free_stack_ne_zero (w := w)
    cases hpc : (s.waves w).pc <;> simp [hpc, Pc.popping] at hw
    rfl
  · obtain ⟨hi, hF, -⟩ := (hinv.wave w).popF hw
    rw [hF]
    exact cfg.ptr_ne_zero hi _

instance (s : State cfg) : Decidable (NoTagWrap s) := by
  unfold NoTagWrap
  infer_instance

abbrev twoWaves : Config := ⟨2, 2, 0, by decide, by decide, by decide⟩

/-- Freshly allocated memory. -/
def zeroed : Buffer := ⟨fun _ => ⟨0, 0, 0, 0⟩, fun _ _ _ => 0, 0, 0, 0, 0, 0⟩

def contendedRun : List (Action twoWaves) :=
  let req : Request := ⟨HOSTEXEC_SID_VOID, 5, fun _ _ => 7, twoLanes_active⟩
  [.invoke 0 req, .invoke 1 req, .wave 0, .wave 1, .wave 1, .wave 0] ++
    List.replicate 13 (.wave 1) ++ List.replicate 3 (.wave 0) ++
    List.replicate 7 (.host fun _ => 9)

theorem contendedRun_isSome : (runChecked step (fun s _ => decide (NoTagWrap s))
    (State.init twoWaves zeroed) contendedRun).isSome := by
  decide +kernel

theorem packet_ownership_contended : ∃ s : State twoWaves, Reaches zeroed s ∧
    ∀ i < 2, ∃! p, s.At i p := by
  obtain ⟨s, hs⟩ := Option.isSome_iff_exists.mp contendedRun_isSome
  have hreach : Reaches zeroed s :=
    Reachable.of_runChecked (fun _ _ => of_decide_eq_true) contendedRun _ hs
  exact ⟨s, hreach, (packet_ownership twoWaves zeroed s hreach).1⟩

end Aomp.Hostexec
