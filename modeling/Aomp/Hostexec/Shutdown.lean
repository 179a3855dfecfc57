import Aomp.Hostexec.WakeUp

/-!
# Is the shutdown observed?

`terminate_service_thread` stores `SIGNAL_DONE` in the counter that waves increment without
looking at it. The wait then returns `SIGNAL_DONE` plus the additions since the store, and
before the store `SIGNAL_INIT` plus all additions: which value it sees is a matter of how many
waves rang, modulo `2 ^ 64`.
-/
namespace Aomp.Hostexec

open Foundations

variable {ι : Type} [DecidableEq ι] {cfg : ι → Config} {p p' : Process cfg}

namespace Process

/-- What the doorbell was last set to. -/
def base (p : Process cfg) : Word := if p.stored then SIGNAL_DONE else SIGNAL_INIT

def Counted (p : Process cfg) : Prop := p.doorbell = p.base + BitVec.ofNat 64 p.added

theorem Counted.terminate (h : p.Counted) (hs : TerminateCase p p') : p'.Counted := by
  unfold Counted base stored at *
  cases hs with
  | call hpc | clear hpc | join hpc => simpa [hpc] using h
  | store hpc => simp
  | deregister b rest hpc hlock => simpa [hpc, deregisterBuffer] using h

/-- One step keeps the count. -/
theorem Counted.step (h : p.Counted) {a : ProcessAction cfg} (hs : processStep p a = some p') :
    p'.Counted := by
  cases a with
  | assign b raw =>
    obtain ⟨-, hs⟩ := Option.ite_none_right_eq_some.mp hs
    split_ifs at hs <;> exact Option.some.inj hs ▸ h
  | invoke b w req =>
    obtain ⟨-, hs⟩ := Option.ite_none_right_eq_some.mp hs
    obtain ⟨t, ht, rfl⟩ := Option.map_eq_some_iff.mp hs
    cases step_cases ht with
    | invoke => exact h
  | wave b w =>
    obtain ⟨-, hs⟩ := Option.ite_none_right_eq_some.mp hs
    obtain ⟨t, ht, rfl⟩ := Option.map_eq_some_iff.mp hs
    have hbell := (waveStep_bell ht).2.2
    show t.buf.doorbell = p.base + BitVec.ofNat 64 (p.added + _)
    rw [hbell, BitVec.ofNat_add, ← BitVec.add_assoc, ← h]
    rfl
  | wait =>
    obtain ⟨-, hs⟩ := Option.ite_none_right_eq_some.mp hs
    exact Option.some.inj hs ▸ h
  | lock order =>
    obtain ⟨-, hs⟩ := Option.ite_none_right_eq_some.mp hs
    exact Option.some.inj hs ▸ h
  | host out =>
    cases scanStep_cases hs with
    | unlock => exact h
    | erase => exact h
    | serve b rest t hloop hkept ht => exact (hostStep_bell ht).2.trans h
  | terminate => exact h.terminate (terminateStep_cases hs)

theorem counted_of_reachable {raw : ι → Buffer} {ok : Process cfg → ProcessAction cfg → Prop}
    (h : Reachable processStep ok (init cfg raw) p) : p.Counted :=
  Reachable.invariant h (by simp [Counted, base, init, stored]) fun _ _ _ hp _ hs => hp.step hs

theorem done_add_eq_done (n : ℕ) :
    SIGNAL_DONE + BitVec.ofNat 64 n = SIGNAL_DONE ↔ n % 2 ^ 64 = 0 := by
  rw [BitVec.add_right_eq_self, ← BitVec.toNat_inj, BitVec.toNat_ofNat]
  rfl

theorem init_add_eq_done (n : ℕ) :
    SIGNAL_INIT + BitVec.ofNat 64 n = SIGNAL_DONE ↔ n % 2 ^ 64 = 2 ^ 64 - 1 := by
  have hdone : SIGNAL_DONE = SIGNAL_INIT + BitVec.ofNat 64 (2 ^ 64 - 1) := by decide
  rw [hdone, BitVec.add_right_inj, ← BitVec.toNat_inj, BitVec.toNat_ofNat, BitVec.toNat_ofNat,
    Nat.mod_eq_of_lt (by norm_num : 2 ^ 64 - 1 < 2 ^ 64)]

/-- The thread leaves its loop at the additions that bring the counter to `SIGNAL_DONE`. -/
theorem Counted.exited_iff (h : p.Counted) (hs : processStep p .wait = some p') :
    p'.loop = .exited ↔ p.added % 2 ^ 64 = if p.stored then 0 else 2 ^ 64 - 1 := by
  obtain ⟨-, hs⟩ := Option.ite_none_right_eq_some.mp hs
  have hexited : p'.loop = .exited ↔ p.doorbell = SIGNAL_DONE := by
    rw [← Option.some.inj hs]
    by_cases hdone : p.doorbell = SIGNAL_DONE <;> simp [hdone]
  rw [hexited, h, base]
  cases p.stored with
  | true => exact done_add_eq_done p.added
  | false => exact init_add_eq_done p.added

/-- The first value the wait returns after the store is `SIGNAL_DONE`, and it ends the loop;
the loop has not ended before `hostrpc_terminate` was called. -/
structure Observed (p : Process cfg) : Prop where
  heard : ∀ v, p.heard = some v → v = SIGNAL_DONE ∧ p.loop = .exited
  exited : p.loop = .exited → p.terminate ≠ .running

/-- Where the wait returns, the additions since the store make up a multiple of `2 ^ 64` (in
practice: there is none), and before `hostrpc_terminate` the additions do not make up
`2 ^ 64 - 1`. -/
def Counts (p : Process cfg) : ProcessAction cfg → Prop
  | .wait => (p.stored → p.added % 2 ^ 64 = 0) ∧
      (p.terminate = .running → p.added % 2 ^ 64 ≠ 2 ^ 64 - 1)
  | _ => True

omit [DecidableEq ι] in
theorem Observed.of_loop (h : p.Observed) (hheard : p'.heard = p.heard) (hloop : p'.loop = p.loop)
    (hterminate : p.terminate ≠ .running → p'.terminate ≠ .running) : p'.Observed :=
  ⟨by rw [hheard, hloop]; exact h.heard, by rw [hloop]; exact fun he => hterminate (h.exited he)⟩

omit [DecidableEq ι] in
theorem Observed.of_running (h : p.Observed) (hheard : p'.heard = p.heard) (hloop : p.loop ≠ .exited)
    (hloop' : p'.loop ≠ .exited) : p'.Observed :=
  ⟨fun v hv => absurd (h.heard v (hheard ▸ hv)).2 hloop, fun he => absurd he hloop'⟩

theorem Observed.wait (h : p.Observed) (hcounted : p.Counted) (hok : p.Counts .wait)
    (hs : processStep p .wait = some p') : p'.Observed := by
  have hexited := hcounted.exited_iff hs
  obtain ⟨hloop, hs⟩ := Option.ite_none_right_eq_some.mp hs
  obtain rfl := Option.some.inj hs
  have hnone : p.heard = none := by
    cases hheard : p.heard with
    | none => rfl
    | some v =>
      have hended := (h.heard v hheard).2
      rw [hloop] at hended
      cases hended
  constructor
  · intro v hv
    cases hstored : p.stored with
    | true =>
      have hzero := hok.1 hstored
      rw [hstored, if_pos rfl] at hexited
      refine ⟨?_, hexited.mpr hzero⟩
      rw [hcounted, base, hstored, if_pos rfl] at hv
      simp only [hnone, and_self, if_true, Option.some.injEq] at hv
      exact hv ▸ (done_add_eq_done p.added).mpr hzero
    | false => simp [hnone, hstored] at hv
  · intro he hrunning
    have hstored : p.stored = false := by
      have hrunning : p.terminate = .running := hrunning
      simp [stored, hrunning]
    rw [hstored] at hexited
    exact hok.2 hrunning (hexited.mp he)

theorem Observed.step (h : p.Observed) (hcounted : p.Counted) {a : ProcessAction cfg}
    (hok : p.Counts a) (hs : processStep p a = some p') : p'.Observed := by
  cases a with
  | assign b raw =>
    obtain ⟨-, hs⟩ := Option.ite_none_right_eq_some.mp hs
    split_ifs at hs <;> exact h.of_loop (Option.some.inj hs ▸ rfl) (Option.some.inj hs ▸ rfl)
      (Option.some.inj hs ▸ id)
  | invoke b w req | wave b w =>
    obtain ⟨-, hs⟩ := Option.ite_none_right_eq_some.mp hs
    obtain ⟨t, -, rfl⟩ := Option.map_eq_some_iff.mp hs
    exact h.of_loop rfl rfl id
  | wait => exact h.wait hcounted hok hs
  | lock order =>
    obtain ⟨⟨hloop, -⟩, hs⟩ := Option.ite_none_right_eq_some.mp hs
    exact h.of_running (Option.some.inj hs ▸ rfl) (by simp [hloop]) (by simp [← Option.some.inj hs])
  | host out =>
    cases scanStep_cases hs with
    | unlock hloop | erase _ _ hloop | serve _ _ _ hloop =>
      exact h.of_running rfl (by simp [hloop]) (by simp)
  | terminate =>
    cases terminateStep_cases hs <;> exact h.of_loop rfl rfl (by simp)

/-- In runs whose additions meet `Counts` the shutdown is observed; and in any run, where the
wait returns, the loop ends exactly when the additions make up `SIGNAL_DONE`. -/
theorem shutdown_observed {raw : ι → Buffer}
    (h : Reachable processStep (fun _ _ => True) (init cfg raw) p) :
    (Reachable processStep Counts (init cfg raw) p → p.Observed) ∧
    ∀ p', processStep p .wait = some p' →
      (p'.loop = .exited ↔ p.added % 2 ^ 64 = if p.stored then 0 else 2 ^ 64 - 1) := by
  refine ⟨fun hcounts => ?_, fun p' hs => (counted_of_reachable h).exited_iff hs⟩
  refine Reachable.invariant₂ hcounts (fun _ hr => counted_of_reachable hr)
    ⟨by simp [init], by simp [init]⟩ fun _ _ _ hcounted hp hok hs => hp.step hcounted hok hs

instance (p : Process cfg) (a : ProcessAction cfg) : Decidable (p.Counts a) :=
  match a with
  | .wait => inferInstanceAs (Decidable ((p.stored → p.added % 2 ^ 64 = 0) ∧
      (p.terminate = .running → p.added % 2 ^ 64 ≠ 2 ^ 64 - 1)))
  | .assign .. | .invoke .. | .wave .. | .lock _ | .host _ | .terminate =>
    inferInstanceAs (Decidable True)

def orderlyShutdown : List (ProcessAction twoQueues) :=
  let req : Request := ⟨HOSTEXEC_SID_VOID, 5, fun _ _ => 7, twoLanes_active⟩
  [.assign 0 zeroed, .invoke 0 1 req] ++ List.replicate 16 (.wave 0 1) ++
    List.replicate 4 .terminate ++ [.wait, .terminate]

theorem shutdown_observed_orderlyShutdown : ∃ p : Process twoQueues, p.terminate = .terminated ∧
    p.heard = some SIGNAL_DONE ∧ p.Observed := by
  have hrun : (runChecked processStep (fun p a => decide (p.Counts a))
      (init twoQueues fun _ => zeroed) orderlyShutdown).map (fun p => (p.terminate, p.heard)) =
        some (.terminated, some SIGNAL_DONE) := by
    decide +kernel
  obtain ⟨p, hp, hstate⟩ := Option.map_eq_some_iff.mp hrun
  obtain ⟨hterminate, hheard⟩ := Prod.mk.inj hstate
  have hcounts : Reachable processStep Counts (init twoQueues fun _ => zeroed) p :=
    Reachable.of_runChecked (fun _ _ => of_decide_eq_true) orderlyShutdown _ hp
  exact ⟨p, hterminate, hheard,
    (shutdown_observed (hcounts.weaken fun _ _ _ => trivial)).1 hcounts⟩

def lateAddition : List (ProcessAction twoQueues) :=
  let req : Request := ⟨HOSTEXEC_SID_VOID, 5, fun _ _ => 7, twoLanes_active⟩
  [.assign 0 zeroed, .invoke 0 1 req] ++ List.replicate 15 (.wave 0 1) ++
    List.replicate 4 .terminate ++ [.wave 0 1, .wait]

theorem not_observed_lateAddition : ¬ ∀ p : Process twoQueues,
    Reachable processStep (fun _ _ => True) (init twoQueues fun _ => zeroed) p → p.Observed := by
  intro hall
  have hrun : (runChecked processStep (fun _ _ => true)
      (init twoQueues fun _ => zeroed) lateAddition).map Process.heard =
        some (some SIGNAL_INIT) := by
    decide +kernel
  obtain ⟨p, hp, hheard⟩ := Option.map_eq_some_iff.mp hrun
  have hobserved := hall p (Reachable.of_runChecked (fun _ _ _ => trivial) lateAddition _ hp)
  exact absurd (hobserved.heard _ hheard).1 (by decide)

end Process

end Aomp.Hostexec
