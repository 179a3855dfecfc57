import Aomp.Hostexec.Services

/-!
# When a host service touches only its own request

A deferred Fortran call keeps the payload pointer of its request and stores through it
when a later request flushes. So a run stores only into the slots of the requests it
executes exactly when no flush finds an entry that arrived in another slot.
-/
namespace Aomp.Hostexec

open Foundations Fortran

variable {ι : Type} {results : ℕ → Word} {st st' : Fortran.State ι SlotAddr} {s s' : HostState ι}

/-- Every deferred entry is called by the next flush. -/
structure Flushable (st : Fortran.State ι SlotAddr) : Prop where
  runs : ∀ q ∈ st.deferred_fns.entries, q.Runs
  thread : ∀ q ∈ st.deferred_fns.entries, q.thread_num.toNat < st.max_num_threads.toNat
  team : ∀ q ∈ st.deferred_fns.entries, q.team_num.toNat < st.max_num_teams.toNat
  threads_lt : st.max_num_threads.toNat < 2 ^ 32
  teams_lt : st.max_num_teams.toNat < 2 ^ 32

theorem Flushable.of_empty (hfns : st.deferred_fns.entries = [])
    (hthreads : st.max_num_threads = 0) (hteams : st.max_num_teams = 0) : Flushable st := by
  constructor <;> simp [hfns, hthreads, hteams]

theorem Flushable.record (h : Flushable st) {r : StubRequest}
    (hthread : r.thread_num < r.num_threads) (hteam : r.team_num < r.num_teams) (slot : SlotAddr)
    (origin : ι) : Flushable (st.record r slot origin) := by
  have hthreads : (st.record r slot origin).max_num_threads.toNat =
      max st.max_num_threads.toNat r.num_threads.toNat := toNat_max _ _
  have hteams : (st.record r slot origin).max_num_teams.toNat =
      max st.max_num_teams.toNat r.num_teams.toNat := toNat_max _ _
  have hkey := r.entry_key st.deferred_fn_count slot origin
  simp only [Entry.key, StubRequest.key, Prod.mk.injEq] at hkey
  rw [BitVec.lt_def] at hthread hteam
  refine ⟨?_, ?_, ?_, ?_, ?_⟩
  · intro q hq
    rw [Fortran.State.record_entries, List.mem_append, List.mem_singleton] at hq
    rcases hq with hq | rfl
    · exact h.runs q hq
    · exact r.entry_runs _ _ _
  · intro q hq
    rw [Fortran.State.record_entries, List.mem_append, List.mem_singleton] at hq
    rw [hthreads]
    rcases hq with hq | rfl
    · exact (h.thread q hq).trans_le (le_max_left _ _)
    · rw [hkey.2]
      exact hthread.trans_le (le_max_right _ _)
  · intro q hq
    rw [Fortran.State.record_entries, List.mem_append, List.mem_singleton] at hq
    rw [hteams]
    rcases hq with hq | rfl
    · exact (h.team q hq).trans_le (le_max_left _ _)
    · rw [hkey.1]
      exact hteam.trans_le (le_max_right _ _)
  · rw [hthreads]
    exact max_lt h.threads_lt r.num_threads.isLt
  · rw [hteams]
    exact max_lt h.teams_lt r.num_teams.isLt

theorem Flushable.scan_perm (h : Flushable st) :
    (scan st.max_num_teams.toNat st.max_num_threads.toNat st.deferred_fns.entries).Perm
      st.deferred_fns.entries := by
  rw [scan_eq]
  apply bucketScan_perm (List.nodup_range.product List.nodup_range)
  intro q hq
  rw [Entry.key, List.mem_product, List.mem_range, List.mem_range]
  exact ⟨h.team q hq, h.thread q hq⟩

theorem Flushable.flush (h : Flushable st) (hlive : st.deferred_fns = .live st.deferred_fns.entries)
    {rc : ServiceRc} (hs : flush results st = some (st', rc)) :
    Flushable st' ∧ ∃ calls, st'.called = st.called ++ calls ∧
      ∀ slot, (∀ c ∈ calls, c.return_value = slot) ↔
        ∀ q ∈ st.deferred_fns.entries, q.return_value = slot := by
  obtain ⟨t, calls, ht, hcalled, hsig, hfns, -, -, -, hthreads, hteams⟩ :=
    flush_of_runs results hlive h.teams_lt h.threads_lt h.runs
  obtain ⟨rfl, rfl⟩ := Prod.mk.inj (Option.some.inj (ht.symm.trans hs))
  refine ⟨.of_empty (by rw [hfns]; rfl) hthreads hteams, calls, hcalled, fun slot => ?_⟩
  have hvalues : calls.map (·.return_value) =
      (scan st.max_num_teams.toNat st.max_num_threads.toNat st.deferred_fns.entries).map
        (·.return_value) := by
    have := congrArg (List.map fun x => x.2.2.1) hsig
    simpa [List.map_map, Function.comp_def, Called.signature, Entry.signature] using this
  calc (∀ c ∈ calls, c.return_value = slot)
      ↔ ∀ v ∈ calls.map (·.return_value), v = slot := by simp
    _ ↔ ∀ q ∈ scan st.max_num_teams.toNat st.max_num_threads.toNat st.deferred_fns.entries,
          q.return_value = slot := by rw [hvalues]; simp
    _ ↔ ∀ q ∈ st.deferred_fns.entries, q.return_value = slot :=
        forall_congr' fun q => by rw [h.scan_perm.mem_iff]

theorem not_freed_of_some {r : StubRequest} {slot : SlotAddr} {origin : ι}
    {x : Fortran.State ι SlotAddr × ServiceRc}
    (h : fortranRtService results st slot origin r.toRequest = some x) :
    st.deferred_fns ≠ .freed := by
  intro hfreed
  have halloc : st.allocate = st := by simp [Fortran.State.allocate, hfreed]
  have hcount : (st.countStatement r.fn).deferred_fns = .freed := by
    rw [← hfreed]
    cases r.fn <;> rfl
  have hcopy := r.copyStrings_eq
  rw [fortranRtService, if_neg (by simp [StubRequest.toRequest])] at h
  simp only [StubRequest.toRequest, DeviceRt.ofIdx_idx, r.deferForReorder, if_true] at hcopy h
  simp [hcopy, halloc, Fortran.State.defer, hcount] at h

/-- A call that is not deferred stores through the pointer of its own request. -/
theorem direct_spec {req : Fortran.Request} {slot : SlotAddr} {origin : ι} {rc : ServiceRc}
    (hreq : ∀ fn, DeviceRt.ofIdx req.DeviceRuntime_idx = some fn → fn.deferForReorder = false)
    (h : fortranRtService results st slot origin req = some (st', rc)) (hf : Flushable st) :
    Flushable st' ∧ ∃ calls, st'.called = st.called ++ calls ∧ ∀ c ∈ calls, c.return_value = slot := by
  have halloc : Flushable st.allocate ∧ st.allocate.called = st.called := by
    unfold Fortran.State.allocate
    split
    · exact ⟨⟨by simp [DeferredFns.entries], by simp [DeferredFns.entries],
        by simp [DeferredFns.entries], hf.threads_lt, hf.teams_lt⟩, rfl⟩
    · exact ⟨hf, rfl⟩
  have hnone : ∀ {t : Fortran.State ι SlotAddr}, Flushable t → t.called = st.called →
      some (t, ServiceRc.errorInvalidRequest) = some (st', rc) → Flushable st' ∧
        ∃ calls, st'.called = st.called ++ calls ∧ ∀ c ∈ calls, c.return_value = slot := by
    intro t ht hcalled he
    obtain ⟨rfl, -⟩ := Prod.mk.inj (Option.some.inj he)
    exact ⟨ht, [], by simp [hcalled], by simp⟩
  by_cases hlen : req.a.length = 0
  · rw [fortranRtService, if_pos hlen] at h
    exact hnone hf rfl h
  · rw [fortranRtService, if_neg hlen] at h
    by_cases hcall : callable (req.a.length - 4)
    · cases hidx : DeviceRt.ofIdx req.DeviceRuntime_idx with
      | none => simp [hidx, hcall] at h
      | some fn =>
        simp only [hidx, hreq fn hidx, Bool.false_eq_true, if_false, hcall, if_true] at h
        obtain ⟨t, ht, he⟩ := Option.map_eq_some_iff.mp h
        obtain ⟨rfl, -⟩ := Prod.mk.inj he
        obtain ⟨host, -, rfl⟩ := Option.map_eq_some_iff.mp ht
        exact ⟨⟨halloc.1.runs, halloc.1.thread, halloc.1.team, halloc.1.threads_lt,
          halloc.1.teams_lt⟩, [_], by rw [← halloc.2], by simp⟩
    · cases hidx : DeviceRt.ofIdx req.DeviceRuntime_idx with
      | none =>
        simp only [hidx, hcall] at h
        exact hnone halloc.1 halloc.2 h
      | some fn =>
        simp only [hidx, hreq fn hidx, Bool.false_eq_true, if_false, hcall] at h
        exact hnone halloc.1 halloc.2 h

/-- The action does not execute the `End` of a flush whose list holds an entry that
arrived in another slot. -/
def OwnFlush (s : HostState ι) : HostAction ι → Prop
  | .execute service_id slot _ o => service_id = HOSTEXEC_SID_FORTRT →
      ∀ r thread team, o.buffer = .deferred r thread team → s.fortran.triggers r →
        ∀ q ∈ s.fortran.deferred_fns.entries, q.return_value = slot
  | .refill _ => True

theorem storeWords_append_own {slot : SlotAddr} {ws₁ ws₂ : List (Fin 8 × Word)}
    (calls : List (Called ι SlotAddr)) :
    (∀ w ∈ storeWords slot ws₁ ++ calls.map (fun c => (⟨slot, c.return_value, 0, c.result⟩ : Write)) ++
      storeWords slot ws₂, w.Own) ↔ ∀ c ∈ calls, c.return_value = slot := by
  constructor
  · intro h c hc
    exact h ⟨slot, c.return_value, 0, c.result⟩ (by simp only [List.mem_append, List.mem_map]
                                                    exact .inl (.inr ⟨c, hc, rfl⟩))
  · intro h w hw
    rcases List.mem_append.mp hw with hw | hw
    · rcases List.mem_append.mp hw with hw | hw
      · exact own_of_mem_storeWords hw
      · obtain ⟨c, hc, rfl⟩ := List.mem_map.mp hw
        exact h c hc
    · exact own_of_mem_storeWords hw

/-- What the Fortran service calls for a request in `slot`. -/
theorem fortranService_spec {slot : SlotAddr} {origin : ι} {o : Outcome} {rc : Word}
    (hf : Flushable st) (h : fortranService results st slot origin o = some (st', rc)) :
    Flushable st' ∧ ∃ calls, st'.called = st.called ++ calls ∧
      ((∀ c ∈ calls, c.return_value = slot) ↔ ∀ r thread team, o.buffer = .deferred r thread team →
        st.triggers r → ∀ q ∈ st.deferred_fns.entries, q.return_value = slot) := by
  unfold fortranService at h
  cases hbuf : o.buffer with
  | rejected =>
    simp only [hbuf, Option.some.injEq, Prod.mk.injEq] at h
    obtain ⟨rfl, -⟩ := h
    exact ⟨hf, [], by simp, by simp⟩
  | direct req hreq =>
    simp only [hbuf] at h
    obtain ⟨⟨t, rc'⟩, ht, he⟩ := Option.map_eq_some_iff.mp h
    obtain ⟨rfl, -⟩ := Prod.mk.inj he
    obtain ⟨hf', calls, hcalled, hvalues⟩ := direct_spec hreq ht hf
    exact ⟨hf', calls, hcalled, iff_of_true hvalues (by simp)⟩
  | deferred r thread team =>
    simp only [hbuf] at h
    obtain ⟨⟨t, rc'⟩, ht, he⟩ := Option.map_eq_some_iff.mp h
    obtain ⟨rfl, -⟩ := Prod.mk.inj he
    have hrecord := hf.record thread team slot origin
    rw [fortranRtService_stub _ _ _ _ _ (not_freed_of_some ht)] at ht
    have hiff : (∀ r' thread' team', FortranBuffer.deferred r thread team = .deferred r' thread' team' →
        st.triggers r' → ∀ q ∈ st.deferred_fns.entries, q.return_value = slot) ↔
        (st.triggers r → ∀ q ∈ st.deferred_fns.entries, q.return_value = slot) := by
      constructor
      · exact fun h => h r thread team rfl
      · rintro h r' thread' team' he
        obtain rfl := FortranBuffer.deferred.inj he
        exact h
    rw [hiff]
    by_cases htrigger : st.triggers r
    · rw [if_pos htrigger] at ht
      obtain ⟨hf', calls, hcalled, hvalues⟩ := hrecord.flush rfl ht
      refine ⟨hf', calls, by rw [hcalled, Fortran.State.record_called], (hvalues slot).trans ?_⟩
      simp only [Fortran.State.record_entries, List.mem_append, List.mem_singleton, htrigger,
        forall_const]
      constructor
      · exact fun h q hq => h q (.inl hq)
      · rintro h q (hq | rfl)
        · exact h q hq
        · rfl
    · rw [if_neg htrigger] at ht
      obtain ⟨rfl, -⟩ := Prod.mk.inj (Option.some.inj ht)
      exact ⟨hrecord, [], by simp, iff_of_true (by simp) fun h => absurd h htrigger⟩

theorem serviceStep_own_iff {a : HostAction ι} (hf : Flushable s.fortran)
    (h : serviceStep results s a = some s') :
    Flushable s'.fortran ∧ ∃ writes, s'.writes = s.writes ++ writes ∧
      ((∀ w ∈ writes, w.Own) ↔ OwnFlush s a) := by
  cases a with
  | refill memory =>
    obtain rfl := Option.some.inj h
    exact ⟨hf, [], by simp, by simp [OwnFlush]⟩
  | execute service_id slot origin o =>
    obtain ⟨⟨st', writes⟩, hexec, rfl⟩ := Option.map_eq_some_iff.mp h
    by_cases hid : service_id = HOSTEXEC_SID_FORTRT
    · rw [executeService, if_pos hid, handlerServiceFortrt] at hexec
      obtain ⟨⟨t, rc⟩, ht, he⟩ := Option.map_eq_some_iff.mp hexec
      obtain ⟨rfl, rfl⟩ := Prod.mk.inj he
      obtain ⟨hf', calls, hcalled, hvalues⟩ := fortranService_spec hf ht
      refine ⟨hf', _, rfl, ?_⟩
      have hdrop : t.called.drop s.fortran.called.length = calls := by
        rw [hcalled, List.drop_left]
      rw [hdrop, storeWords_append_own, hvalues]
      simp [OwnFlush, hid]
    · rw [executeService, if_neg hid] at hexec
      obtain ⟨handler, hhandler, he⟩ := Option.map_eq_some_iff.mp hexec
      obtain ⟨rfl, rfl⟩ := Prod.mk.inj he
      exact ⟨hf, _, rfl, iff_of_true (payloadHandler_own hhandler slot o)
        fun h => absurd h hid⟩

theorem serviceRun_own_iff (hf : Flushable s.fortran) {actions : List (HostAction ι)}
    (h : serviceRun results s actions = some s') :
    ∃ writes, s'.writes = s.writes ++ writes ∧ ((∀ w ∈ writes, w.Own) ↔
      ∀ before a after, actions = before ++ a :: after → ∀ t,
        serviceRun results s before = some t → OwnFlush t a) := by
  induction actions generalizing s with
  | nil =>
    obtain rfl := Option.some.inj h
    exact ⟨[], by simp, by simp⟩
  | cons a actions ih =>
    rw [serviceRun, List.foldlM_cons] at h
    obtain ⟨t, ht, hrest⟩ := Option.bind_eq_some_iff.mp h
    obtain ⟨hft, writes, hwrites, hown⟩ := serviceStep_own_iff hf ht
    obtain ⟨writes', hwrites', hown'⟩ := ih hft hrest
    refine ⟨writes ++ writes', by rw [hwrites', hwrites, List.append_assoc], ?_⟩
    constructor
    · intro hall before b after he u hu
      cases before with
      | nil =>
        obtain ⟨rfl, rfl⟩ := List.cons.inj he
        obtain rfl := Option.some.inj hu
        exact hown.mp fun w hw => hall w (List.mem_append_left _ hw)
      | cons b' before =>
        obtain ⟨rfl, htail⟩ := List.cons.inj he
        rw [serviceRun, List.foldlM_cons, ht] at hu
        exact hown'.mp (fun w hw => hall w (List.mem_append_right _ hw)) before b after htail u hu
    · intro hall w hw
      rcases List.mem_append.mp hw with hw | hw
      · exact hown.mpr (hall [] a actions rfl s rfl) w hw
      · refine hown'.mpr (fun before b after he u hu => ?_) w hw
        apply hall (a :: before) b after (by rw [he, List.cons_append]) u
        rw [serviceRun, List.foldlM_cons, ht]
        exact hu

/-- A run of services stores only into the slots of the requests it executes if and only
if no flush in it finds an entry that arrived in another slot. -/
theorem services_own_iff (results : ℕ → Word) (memory : SlotAddr → Slot)
    (actions : List (HostAction ι)) (s : HostState ι)
    (h : serviceRun results (.init memory) actions = some s) :
    (∀ w ∈ s.writes, w.Own) ↔ ∀ before a after, actions = before ++ a :: after → ∀ t,
      serviceRun results (.init memory) before = some t → OwnFlush t a := by
  obtain ⟨writes, hwrites, hown⟩ := serviceRun_own_iff (.of_empty rfl rfl rfl) h
  rw [hwrites]
  exact hown

/-- A deferred request of thread `n` of 2, answered with zeros. -/
def deferredOutcome (fn : DeviceRt) (args : List ArgVal) (h : fn.accepts args) (n : BitVec 32)
    (hn : n < 2) : Outcome :=
  ⟨0, false, 0, 0, 0, .deferred ⟨fn, n, 2, 0, 1, args, h⟩ hn (by decide : (0 : BitVec 32) < 1)⟩

def twoLaneStatements (memory : SlotAddr → Slot) : List (HostAction ℕ) :=
  [.execute HOSTEXEC_SID_FORTRT ⟨0, 0⟩ 0
      (deferredOutcome .beginExternalListOutput [.word 6, .str [97], .word 3] accepts_begin 0
        (by decide)),
    .execute HOSTEXEC_SID_FORTRT ⟨0, 1⟩ 1
      (deferredOutcome .beginExternalListOutput [.word 6, .str [97], .word 3] accepts_begin 1
        (by decide)),
    .refill memory,
    .execute HOSTEXEC_SID_FORTRT ⟨0, 0⟩ 2
      (deferredOutcome .endIoStatement [.word 0] accepts_end 0 (by decide)),
    .execute HOSTEXEC_SID_FORTRT ⟨0, 1⟩ 3
      (deferredOutcome .endIoStatement [.word 0] accepts_end 1 (by decide))]

theorem twoLaneStatements_foreign : ((serviceRun (fun _ => 7) (.init fun _ _ => 0)
    (twoLaneStatements fun _ _ => 5)).map fun s =>
      s.writes.any fun w => w.request = ⟨0, 1⟩ ∧ w.slot = ⟨0, 0⟩) = some true := by
  decide +kernel

theorem services_not_own : ¬ ∀ (results : ℕ → Word) (memory : SlotAddr → Slot)
    (actions : List (HostAction ℕ)) (s : HostState ℕ),
    serviceRun results (.init memory) actions = some s → ∀ w ∈ s.writes, w.Own := by
  intro hall
  obtain ⟨s, hs, hany⟩ := Option.map_eq_some_iff.mp twoLaneStatements_foreign
  obtain ⟨w, hw, hslots⟩ := List.any_eq_true.mp hany
  obtain ⟨hrequest, hslot⟩ := of_decide_eq_true hslots
  have hown := hall _ _ _ s hs w hw
  rw [Write.Own, hrequest, hslot] at hown
  simp at hown

/-- One lane that gets the same packet again. -/
def oneLaneStatement : List (HostAction ℕ) :=
  [.execute HOSTEXEC_SID_FORTRT ⟨0, 0⟩ 0
      (deferredOutcome .beginExternalListOutput [.word 6, .str [97], .word 3] accepts_begin 0
        (by decide)),
    .execute HOSTEXEC_SID_FORTRT ⟨0, 0⟩ 1
      (deferredOutcome .endIoStatement [.word 0] accepts_end 0 (by decide))]

theorem oneLaneStatement_isSome :
    (serviceRun (fun _ => 7) (.init fun _ _ => 0) oneLaneStatement).isSome := by
  decide +kernel

theorem services_own_iff_oneLane : ∃ s : HostState ℕ,
    serviceRun (fun _ => 7) (.init fun _ _ => 0) oneLaneStatement = some s ∧
    ((∀ w ∈ s.writes, w.Own) ↔ ∀ before a after, oneLaneStatement = before ++ a :: after → ∀ t,
      serviceRun (fun _ => 7) (.init fun _ _ => 0) before = some t → OwnFlush t a) := by
  obtain ⟨s, hs⟩ := Option.isSome_iff_exists.mp oneLaneStatement_isSome
  exact ⟨s, hs, services_own_iff _ _ _ s hs⟩

end Aomp.Hostexec
