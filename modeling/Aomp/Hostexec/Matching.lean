import Aomp.Hostexec.ConsumerData

/-!
# Requests and responses match

With the steps of the waves and of the consumer this gives, for every completed call,
that each of its active lanes was executed exactly once with its own arguments and got
the result of that execution. A call of the sanitizer service is different by design:
it is reported once as a whole.
-/
namespace Aomp.Hostexec

open Foundations

variable {cfg : Config} {exec : Service} {s s' : State cfg} {L : Lists} {raw : Buffer}

/-- A call starts: nothing is recorded under its number yet. -/
theorem Matched.invoke (h : Matched exec s) {w : Fin cfg.waves} (req : Request)
    (hpc : (s.waves w).pc = .idle) :
    Matched exec ({ s with calls := s.calls + 1 }.setWave w
      { s.waves w with pc := .pop .load, req := req, call := s.calls }) := by
  have hruns : s.runsOf s.calls = [] := List.filter_eq_nil_iff.mpr fun e he => by
    have := (h.log e he).1.lt h.numbered
    simp only [decide_eq_true_eq]
    omega
  have hreports : s.reportsOf s.calls = [] := List.filter_eq_nil_iff.mpr fun r hr => by
    have := (h.reports r hr).lt h.numbered
    simp only [decide_eq_true_eq]
    omega
  have hstarted : ∀ call, Started s.waves s.completed call →
      Started (Function.update s.waves w
        { s.waves w with pc := .pop .load, req := req, call := s.calls }) s.completed call := by
    rintro call (hc | ⟨v, hv, he⟩)
    · exact .inl hc
    · have hvw : v ≠ w := by
        rintro rfl
        exact hv hpc
      exact .inr ⟨v, by rwa [Function.update_of_ne hvw], by rwa [Function.update_of_ne hvw]⟩
  refine ⟨h.device, fun v => ?_, h.consumer, ⟨fun v hv => ?_, fun v v' hv hv' he => ?_, ?_, ?_, ?_⟩,
    fun e he => ⟨hstarted _ (h.log e he).1, (h.log e he).2⟩, fun r hr => hstarted _ (h.reports r hr),
    h.answered⟩
  · by_cases hv : v = w
    · subst hv
      simp only [State.setWave_waves, Function.update_self]
      exact ⟨fun _ => ⟨hruns, hreports⟩, by simp [Pc.filled]⟩
    · simp only [State.setWave_waves, Function.update_of_ne hv]
      exact (h.wave v).frame (fun _ => ⟨rfl, rfl, rfl, rfl, rfl⟩) rfl rfl
  · by_cases hvw : v = w
    · subst hvw
      simp
    · simp only [State.setWave_waves, Function.update_of_ne hvw] at hv ⊢
      exact (h.numbered.lt v hv).trans (Nat.lt_succ_self _)
  · by_cases hvw : v = w <;> by_cases hvw' : v' = w
    · rw [hvw, hvw']
    · subst hvw
      simp only [State.setWave_waves, Function.update_self, Function.update_of_ne hvw'] at hv' he
      have := h.numbered.lt v' hv'
      omega
    · subst hvw'
      simp only [State.setWave_waves, Function.update_self, Function.update_of_ne hvw] at hv he
      have := h.numbered.lt v hv
      omega
    · simp only [State.setWave_waves, Function.update_of_ne hvw, Function.update_of_ne hvw'] at hv hv' he
      exact h.numbered.inj v v' hv hv' he
  · exact fun c hc => (h.numbered.completed_lt c hc).trans (Nat.lt_succ_self _)
  · intro c hc v hv
    by_cases hvw : v = w
    · subst hvw
      have := h.numbered.completed_lt c hc
      simp only [State.setWave_waves, Function.update_self]
      omega
    · simp only [State.setWave_waves, Function.update_of_ne hvw] at hv ⊢
      exact h.numbered.completed_ne c hc v hv
  · exact h.numbered.nodup

theorem Matched.step {a : Action cfg} (h : Matched exec s) (hinv : Inv s L)
    (hserves : Serves exec s a) (hs : step s a = some s') : Matched exec s' := by
  cases step_cases hs with
  | invoke w req hpc => exact h.invoke req hpc
  | wave w hw => exact h.waveStep hinv hw
  | host out hh => exact h.hostStep hinv hserves hh

theorem Matched.init (cfg : Config) (exec : Service) (raw : Buffer) :
    Matched exec (State.init cfg raw) where
  device := rfl
  wave _ := ⟨by simp [State.init, Pc.unfilled], by simp [State.init, Pc.filled]⟩
  consumer := .of_idle (.inl rfl)
  numbered := ⟨by simp [State.init], by simp [State.init], by simp [State.init],
    by simp [State.init], by simp [State.init]⟩
  log := by simp [State.init]
  reports := by simp [State.init]
  answered := by simp [State.init]

theorem ReachesServing.reaches (h : ReachesServing exec raw s) : Reaches raw s :=
  h.weaken fun _ _ => And.left

theorem ReachesServing.matched (h : ReachesServing exec raw s) : Matched exec s :=
  h.invariant₂ (fun _ hr => ReachesServing.reaches hr |>.inv) (Matched.init cfg exec raw)
    fun _ _ _ ⟨_, hinv⟩ hm hok hs => hm.step hinv hok.2 hs

theorem lanesBelow_nodup (m : Word) (n : ℕ) : (lanesBelow m n).Nodup :=
  ((List.nodup_finRange 64).sublist (List.take_sublist _ _)).filter _

theorem Matched.execution (h : Matched exec s) {e : Execution} (he : e ∈ s.log) :
    (∃ c ∈ s.completed, c.call = e.call ∧ e.OfRequest cfg.device_id c.req) ∨
      ∃ w, (s.waves w).pc ≠ .idle ∧ (s.waves w).call = e.call ∧
        e.OfRequest cfg.device_id (s.waves w).req := by
  have hmem : e ∈ s.runsOf e.call := List.mem_filter.mpr ⟨he, by simp⟩
  rcases (h.log e he).1 with ⟨c, hc, hcall⟩ | ⟨w, hw, hcall⟩
  · rw [← hcall] at hmem
    by_cases hsan : c.req.Sanitizes
    · rw [((h.answered c hc).sanitized hsan).1] at hmem
      simp at hmem
    · exact .inl ⟨c, hc, hcall, (((h.answered c hc).executed hsan).2.1 e hmem).1⟩
  · rw [← hcall] at hmem
    refine .inr ⟨w, hw, hcall, ?_⟩
    by_cases hf : (s.waves w).pc.filled
    · exact (((h.wave w).filled hf).run e hmem).1
    · have hu : (s.waves w).pc.unfilled := by
        cases hpc : (s.waves w).pc <;> simp [hpc, Pc.filled, Pc.unfilled] at hw hf ⊢
      rw [((h.wave w).unfilled hu).1] at hmem
      simp at hmem

theorem Matched.lanes_nodup (h : Matched exec s) (call : ℕ) :
    ((s.runsOf call).map (·.lane)).Nodup := by
  by_cases hnil : s.runsOf call = []
  · simp [hnil]
  · obtain ⟨e, he⟩ := List.exists_mem_of_ne_nil _ hnil
    obtain ⟨hmem, hcall⟩ := List.mem_filter.mp he
    obtain rfl : e.call = call := by simpa using hcall
    rcases (h.log e hmem).1 with ⟨c, hc, heq⟩ | ⟨w, hw, heq⟩
    · rw [← heq] at he ⊢
      by_cases hsan : c.req.Sanitizes
      · simp [((h.answered c hc).sanitized hsan).1]
      · rw [((h.answered c hc).executed hsan).1]
        exact (List.nodup_finRange 64).filter _
    · rw [← heq] at he ⊢
      by_cases hf : (s.waves w).pc.filled
      · rw [((h.wave w).filled hf).lanes]
        split_ifs
        · exact List.nodup_nil
        · exact lanesBelow_nodup _ _
      · have hu : (s.waves w).pc.unfilled := by
          cases hpc : (s.waves w).pc <;> simp [hpc, Pc.filled, Pc.unfilled] at hw hf ⊢
        simp [((h.wave w).unfilled hu).1]

/-- In every reachable state: a completed call has had each of its active lanes executed
exactly once, with its own service and arguments, and returned the result of that
execution; a sanitizer call was reported once as a whole; every execution serves an
active lane of a call that was made. -/
theorem request_response_matching (cfg : Config) (exec : Service) (raw : Buffer) (s : State cfg)
    (h : ReachesServing exec raw s) :
    (∀ c ∈ s.completed, Answered cfg.device_id c (s.runsOf c.call) (s.reportsOf c.call)) ∧
    (s.completed.map (·.call)).Nodup ∧
    (∀ call, ((s.runsOf call).map (·.lane)).Nodup) ∧
    ∀ e ∈ s.log, exec e.service_id e.device_id e.args e.result ∧
      ((∃ c ∈ s.completed, c.call = e.call ∧ e.OfRequest cfg.device_id c.req) ∨
        ∃ w, (s.waves w).pc ≠ .idle ∧ (s.waves w).call = e.call ∧
          e.OfRequest cfg.device_id (s.waves w).req) := by
  have hm := h.matched
  exact ⟨hm.answered, hm.numbered.nodup, hm.lanes_nodup,
    fun e he => ⟨(hm.log e he).2, hm.execution he⟩⟩

/-- `NoTagWrap` and `Serves`, decided for the lane that the step is about. -/
def checkStep (exec : Service) [∀ id dev args result, Decidable (exec id dev args result)]
    (s : State cfg) (a : Action cfg) : Bool :=
  decide (NoTagWrap s) && match a, s.consumer.pc with
    | .host out, .lane wi =>
      if h : wi < 64 then
        !laneActive s.consumer.activemask wi || decide (exec s.consumer.service_id s.buf.device_id
          (s.buf.getPayload s.consumer.iter ⟨wi, h⟩) out)
      else true
    | _, _ => true

theorem of_checkStep [∀ id dev args result, Decidable (exec id dev args result)] (s : State cfg)
    (a : Action cfg) (h : checkStep exec s a = true) : NoTagWrap s ∧ Serves exec s a := by
  obtain ⟨hwrap, hserves⟩ := Bool.and_eq_true_iff.mp h
  refine ⟨of_decide_eq_true hwrap, ?_⟩
  cases a with
  | invoke w req => trivial
  | wave w => trivial
  | host out =>
    intro lane hpc hactive
    simpa [hpc, hactive] using hserves

abbrev oneWave : Config := ⟨1, 1, 0, by decide, by decide, by decide⟩

abbrev returnsEight : Service := fun _ _ _ result => result 0 = 8

/-- One call of `hostexec_invoke` with `lanes` steps of the consumer for the payload. -/
def wholeCall (req : Request) (out : Slot) (lanes : ℕ) : List (Action oneWave) :=
  .invoke 0 req :: List.replicate 15 (.wave 0) ++ List.replicate (5 + lanes) (.host out) ++
    List.replicate 13 (.wave 0)

/-- Lanes 0 and 2 call `hostexec_uint`. -/
def twoLanes : Request := ⟨HOSTEXEC_SID_UINT, 5, fun _ _ => 7, twoLanes_active⟩

def sanitizerReport : Request := ⟨HOSTEXEC_SID_SANITIZER, 1, fun _ _ => 7, firstLane_active⟩

theorem wholeCall_twoLanes : (runChecked step (checkStep returnsEight) (State.init oneWave zeroed)
    (wholeCall twoLanes (fun _ => 8) 65)).map (fun s => s.completed.length) = some 1 := by
  decide +kernel

theorem request_response_matching_twoLanes : ∃ s : State oneWave, ReachesServing returnsEight zeroed s ∧
    s.completed.length = 1 ∧
    ∀ c ∈ s.completed, Answered 0 c (s.runsOf c.call) (s.reportsOf c.call) := by
  obtain ⟨s, hs, hlength⟩ := Option.map_eq_some_iff.mp wholeCall_twoLanes
  have hreach : ReachesServing returnsEight zeroed s :=
    Reachable.of_runChecked of_checkStep _ _ hs
  exact ⟨s, hreach, hlength, (request_response_matching oneWave returnsEight zeroed s hreach).1⟩

theorem wholeCall_sanitizer : ((runChecked step (checkStep returnsEight)
    (State.init oneWave zeroed) (wholeCall sanitizerReport (fun _ => 8) 1)).map fun s =>
        (s.completed.map fun c => (c.call, laneActive c.req.activemask 0), s.log.length)) =
    some ([(0, true)], 0) := by
  decide +kernel

/-- A completed call of the sanitizer service has an active lane that `execute_service`
never ran for. -/
theorem sanitizer_not_executed : ¬ ∀ (cfg : Config) (exec : Service) (raw : Buffer) (s : State cfg),
    ReachesServing exec raw s → ∀ c ∈ s.completed, ∀ lane : Fin 64,
      laneActive c.req.activemask lane → ∃ e ∈ s.log, e.call = c.call ∧ e.lane = lane := by
  intro hall
  obtain ⟨s, hs, hend⟩ := Option.map_eq_some_iff.mp wholeCall_sanitizer
  have hreach : ReachesServing returnsEight zeroed s :=
    Reachable.of_runChecked of_checkStep _ _ hs
  obtain ⟨hcompleted, hlog⟩ := Prod.mk.inj hend
  obtain ⟨c, hc, hlane⟩ : ∃ c ∈ s.completed, laneActive c.req.activemask 0 = true := by
    obtain ⟨c, hc, he⟩ := List.mem_map.mp (hcompleted ▸ List.mem_singleton_self _)
    exact ⟨c, hc, (Prod.mk.inj he).2⟩
  obtain ⟨e, he, -⟩ := hall oneWave returnsEight zeroed s hreach c hc 0 hlane
  simp [List.length_eq_zero_iff.mp hlog] at he

end Aomp.Hostexec
