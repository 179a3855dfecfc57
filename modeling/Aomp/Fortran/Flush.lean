import Aomp.Fortran.StubRequests

/-!
# The flush runs every deferred call once and in order

Before the `End` that closes the last open statement the service only records. The flush
is a scan over teams and threads, so it is a stable sort of the recorded entries.
-/
namespace Aomp.Fortran

open Foundations Hostexec

variable {ι ρ : Type} {results : ℕ → Word} {s : State ι ρ}

/-- Which function is called with which arguments, for which request. -/
def Called.signature (c : Called ι ρ) : DeviceRt × List ArgVal × ρ × ι :=
  (c.fnptr, c.args, c.return_value, c.origin)

def Entry.signature (q : Entry ι ρ) : DeviceRt × List ArgVal × ρ × ι :=
  (q.fnptr, q.arg_array, q.return_value, q.origin)

/-- Entries whose calls go through are all called, in the order of the list. -/
theorem runDeferred_of_runs (results : ℕ → Word) (s : State ι ρ) {qs : List (Entry ι ρ)}
    (h : ∀ q ∈ qs, q.Runs) :
    ∃ s' calls, runDeferred results s qs = some (s', .success) ∧ s'.called = s.called ++ calls ∧
      calls.map Called.signature = qs.map Entry.signature := by
  induction qs generalizing s with
  | nil => exact ⟨s, [], rfl, by simp, rfl⟩
  | cons q qs ih =>
    have hq := h q List.mem_cons_self
    obtain ⟨host, hhost⟩ := Option.isSome_iff_exists.mp (hq.wrapper s.list_started_cookie)
    have hargs : q.arg_array.take q.NumArgs = q.arg_array := by rw [← hq.length, List.take_length]
    rw [runDeferred, if_pos hq.callable, hargs, State.call, hhost, Option.map_some, Option.bind_some]
    set call : Called ι ρ := ⟨q.fnptr, q.arg_array, host, q.return_value, results s.called.length,
      q.origin⟩ with hcall
    obtain ⟨s', calls, hrun, hcalled, hsig⟩ := ih
      { s with
        list_started_cookie := if q.fnptr = .beginExternalListOutput then results s.called.length
          else s.list_started_cookie
        called := s.called ++ [call] }
      fun q' hq' => h q' (List.mem_cons_of_mem _ hq')
    refine ⟨s', call :: calls, hrun, by simp [hcalled], ?_⟩
    rw [List.map_cons, List.map_cons, hsig]
    rfl

theorem scan_eq (max_num_teams max_num_threads : ℕ) (fns : List (Entry ι ρ)) :
    scan max_num_teams max_num_threads fns =
      bucketScan (List.range max_num_teams ×ˢ List.range max_num_threads) Entry.key fns := by
  rw [bucketScan_product]
  rfl

theorem flush_of_runs (results : ℕ → Word) {fns : List (Entry ι ρ)}
    (hfns : s.deferred_fns = .live fns) (hteams : s.max_num_teams.toNat < 2 ^ 32)
    (hthreads : s.max_num_threads.toNat < 2 ^ 32) (hruns : ∀ q ∈ fns, q.Runs) :
    ∃ s' calls, flush results s = some (s', .success) ∧ s'.called = s.called ++ calls ∧
      calls.map Called.signature =
        (scan s.max_num_teams.toNat s.max_num_threads.toNat fns).map Entry.signature ∧
      s'.deferred_fns = .freed ∧ s'.deferred_fn_count = 0 ∧ s'.deferred_begin_statements = 0 ∧
      s'.deferred_end_statements = 0 ∧ s'.max_num_threads = 0 ∧ s'.max_num_teams = 0 := by
  have hscan : ∀ q ∈ scan s.max_num_teams.toNat s.max_num_threads.toNat fns, q.Runs := by
    intro q hq
    rw [scan_eq, mem_bucketScan] at hq
    exact hruns q hq.1
  obtain ⟨s', calls, hrun, hcalled, hsig⟩ := runDeferred_of_runs results s hscan
  rw [flush, hfns]
  simp only [hrun, Option.map_some, if_true, if_neg (show ¬ (2 ^ 32 ≤ s.max_num_teams.toNat ∨
    2 ^ 32 ≤ s.max_num_threads.toNat) by omega)]
  exact ⟨_, calls, rfl, hcalled, hsig, rfl, rfl, rfl, rfl, rfl, rfl⟩

/-- A request at its arrival: where its return value goes and which request it is. -/
structure Arrival (ι ρ : Type) where
  req : StubRequest
  return_value : ρ
  origin : ι

def Arrival.signature (r : Arrival ι ρ) : DeviceRt × List ArgVal × ρ × ι :=
  (r.req.fn, r.req.recorded, r.return_value, r.origin)

def Arrival.entry (r : Arrival ι ρ) (n : ℕ) : Entry ι ρ :=
  r.req.entry (BitVec.ofNat 32 n) r.return_value r.origin

/-- How many requests call `fn`, in the width of the counters. -/
def statements (fn : DeviceRt) (l : List (Arrival ι ρ)) : BitVec 32 :=
  BitVec.ofNat 32 (l.countP fun r => r.req.fn = fn)

/-- The last request is an `End` that makes the two statement counters equal. -/
def Closes (l : List (Arrival ι ρ)) : Prop :=
  l.getLast?.map (fun r => r.req.fn) = some .endIoStatement ∧
    statements .endIoStatement l = statements .beginExternalListOutput l

instance (l : List (Arrival ι ρ)) : Decidable (Closes l) :=
  inferInstanceAs (Decidable (_ ∧ _))

/-- The service has recorded the requests `l` and run nothing. -/
structure Recorded (s : State ι ρ) (l : List (Arrival ι ρ)) : Prop where
  not_freed : s.deferred_fns ≠ .freed
  entries : s.deferred_fns.entries = l.zipIdx.map fun (r, n) => r.entry n
  count : s.deferred_fn_count = BitVec.ofNat 32 l.length
  begins : s.deferred_begin_statements = statements .beginExternalListOutput l
  ends : s.deferred_end_statements = statements .endIoStatement l
  threads : ∀ r ∈ l, r.req.num_threads.toNat ≤ s.max_num_threads.toNat
  teams : ∀ r ∈ l, r.req.num_teams.toNat ≤ s.max_num_teams.toNat
  threads_lt : s.max_num_threads.toNat < 2 ^ 32
  teams_lt : s.max_num_teams.toNat < 2 ^ 32
  called : s.called = []

theorem Recorded.init : Recorded (State.init : State ι ρ) [] := by
  constructor <;> simp [State.init, DeferredFns.entries, statements]

theorem statements_append (fn : DeviceRt) (l : List (Arrival ι ρ)) (r : Arrival ι ρ) :
    statements fn (l ++ [r]) =
      if r.req.fn = fn then statements fn l + 1 else statements fn l := by
  unfold statements
  rw [List.countP_append, List.countP_singleton]
  split_ifs with h <;> simp_all [BitVec.ofNat_add]

theorem toNat_max (m : Word) (n : BitVec 32) :
    (if m < n.setWidth 64 then n.setWidth 64 else m).toNat = max m.toNat n.toNat := by
  have hn : (n.setWidth 64).toNat = n.toNat := by
    rw [BitVec.toNat_setWidth]
    have := n.isLt
    omega
  split_ifs with h
  · rw [BitVec.lt_def, hn] at h
    rw [hn]
    omega
  · rw [BitVec.lt_def, hn] at h
    omega

theorem Recorded.record {l : List (Arrival ι ρ)} (h : Recorded s l) (r : Arrival ι ρ) :
    Recorded (s.record r.req r.return_value r.origin) (l ++ [r]) := by
  have hthreads : (s.record r.req r.return_value r.origin).max_num_threads.toNat =
      max s.max_num_threads.toNat r.req.num_threads.toNat := toNat_max _ _
  have hteams : (s.record r.req r.return_value r.origin).max_num_teams.toNat =
      max s.max_num_teams.toNat r.req.num_teams.toNat := toNat_max _ _
  refine ⟨by simp [State.record], ?_, ?_, ?_, ?_, ?_, ?_, ?_, ?_, ?_⟩
  · rw [State.record_entries, h.entries, h.count, List.zipIdx_append, List.map_append]
    simp [Arrival.entry]
  · have hcount : (s.record r.req r.return_value r.origin).deferred_fn_count =
        s.deferred_fn_count + 1 := rfl
    rw [hcount, h.count, List.length_append, BitVec.ofNat_add]
    rfl
  · rw [State.record_begin, h.begins, statements_append]
  · rw [State.record_end, h.ends, statements_append]
  · intro r' hr'
    rw [hthreads]
    rcases List.mem_append.mp hr' with hr' | hr'
    · exact (h.threads r' hr').trans (le_max_left _ _)
    · rw [List.mem_singleton.mp hr']
      exact le_max_right _ _
  · intro r' hr'
    rw [hteams]
    rcases List.mem_append.mp hr' with hr' | hr'
    · exact (h.teams r' hr').trans (le_max_left _ _)
    · rw [List.mem_singleton.mp hr']
      exact le_max_right _ _
  · rw [hthreads]
    exact max_lt h.threads_lt r.req.num_threads.isLt
  · rw [hteams]
    exact max_lt h.teams_lt r.req.num_teams.isLt
  · rw [State.record_called, h.called]

theorem Recorded.triggers_iff {l : List (Arrival ι ρ)} (h : Recorded s l) (r : Arrival ι ρ) :
    s.triggers r.req = true ↔ Closes (l ++ [r]) := by
  simp only [State.triggers, decide_eq_true_eq, h.begins, h.ends, Closes, List.getLast?_concat,
    Option.map_some, Option.some.injEq]
  apply and_congr_right
  intro hfn
  rw [statements_append, statements_append, if_pos hfn, if_neg (by simp [hfn])]

/-- The service handles one request. -/
def serve (results : ℕ → Word) (s : State ι ρ) (r : Arrival ι ρ) : Option (State ι ρ × ServiceRc) :=
  fortranRtService results s r.return_value r.origin r.req.toRequest

/-- The service handles requests one after the other. -/
def serveAll (results : ℕ → Word) (s : State ι ρ) (l : List (Arrival ι ρ)) : Option (State ι ρ) :=
  l.foldlM (fun s r => (serve results s r).map Prod.fst) s

/-- The order of the flush: by team, by thread, by arrival. -/
def Before (x y : Arrival ι ρ × ℕ) : Prop :=
  x.1.req.team_num < y.1.req.team_num ∨ x.1.req.team_num = y.1.req.team_num ∧
    (x.1.req.thread_num < y.1.req.thread_num ∨
      x.1.req.thread_num = y.1.req.thread_num ∧ x.2 < y.2)

theorem Recorded.serve {l : List (Arrival ι ρ)} (h : Recorded s l) {r : Arrival ι ρ}
    (hr : ¬ Closes (l ++ [r])) :
    serve results s r = some (s.record r.req r.return_value r.origin, .success) := by
  rw [Fortran.serve, fortranRtService_stub _ _ _ _ _ h.not_freed,
    if_neg (fun ht => hr ((h.triggers_iff r).mp ht))]

theorem serveAll_recorded (results : ℕ → Word) (l : List (Arrival ι ρ))
    (hl : ∀ p, p <+: l → ¬ Closes p) :
    ∃ s, serveAll results State.init l = some s ∧ Recorded s l := by
  induction l using List.reverseRecOn with
  | nil => exact ⟨State.init, rfl, .init⟩
  | append_singleton l r ih =>
    obtain ⟨s, hs, hrec⟩ := ih fun p hp => hl p (hp.trans (List.prefix_append l [r]))
    refine ⟨s.record r.req r.return_value r.origin, ?_, hrec.record r⟩
    rw [serveAll] at hs ⊢
    rw [List.foldlM_append, hs]
    simp [hrec.serve (hl _ (List.prefix_refl _))]

theorem zipIdx_pairwise (l : List (Arrival ι ρ)) :
    l.zipIdx.Pairwise fun x y => x.2 < y.2 := by
  have h := List.pairwise_lt_range' (s := 0) (n := l.length)
  rw [← List.zipIdx_map_snd 0 l] at h
  exact List.pairwise_map.mp h

/-- The scan of the recorded entries is the arrivals in the order of the flush. -/
theorem Recorded.scan {l : List (Arrival ι ρ)} (h : Recorded s l)
    (hident : ∀ r ∈ l, r.req.thread_num < r.req.num_threads ∧ r.req.team_num < r.req.num_teams) :
    ∃ order : List (Arrival ι ρ × ℕ), order.Perm l.zipIdx ∧ order.Pairwise Before ∧
      (scan s.max_num_teams.toNat s.max_num_threads.toNat s.deferred_fns.entries).map
        Entry.signature = order.map fun x => x.1.signature := by
  set keys := List.range s.max_num_teams.toNat ×ˢ List.range s.max_num_threads.toNat with hkeys
  have hlex : keys.Pairwise fun x y => x.1 < y.1 ∨ x.1 = y.1 ∧ x.2 < y.2 :=
    pairwise_product List.pairwise_lt_range List.pairwise_lt_range
  have hcover : ∀ x ∈ l.zipIdx, x.1.req.key ∈ keys := by
    intro x hx
    have hmem : x.1 ∈ l := by
      have := List.mem_map_of_mem (f := Prod.fst) hx
      rwa [List.zipIdx_map_fst] at this
    obtain ⟨ht, htm⟩ := hident _ hmem
    rw [hkeys, StubRequest.key, List.mem_product, List.mem_range, List.mem_range]
    rw [BitVec.lt_def] at ht htm
    exact ⟨htm.trans_le (h.teams _ hmem), ht.trans_le (h.threads _ hmem)⟩
  refine ⟨bucketScan keys (fun x => x.1.req.key) l.zipIdx, ?_, ?_, ?_⟩
  · exact bucketScan_perm (List.nodup_range.product List.nodup_range) hcover
  · apply (bucketScan_pairwise hlex (zipIdx_pairwise l)).imp
    rintro x y (hlt | ⟨heq, hidx⟩)
    · simp only [StubRequest.key] at hlt
      rcases hlt with hlt | ⟨heq, hlt⟩
      · exact .inl (BitVec.lt_def.mpr hlt)
      · exact .inr ⟨BitVec.eq_of_toNat_eq heq, .inl (BitVec.lt_def.mpr hlt)⟩
    · simp only [StubRequest.key, Prod.mk.injEq] at heq
      exact .inr ⟨BitVec.eq_of_toNat_eq heq.1, .inr ⟨BitVec.eq_of_toNat_eq heq.2, hidx⟩⟩
  · rw [scan_eq, h.entries, ← map_bucketScan (fun x : Arrival ι ρ × ℕ => x.1.req.key)
      (fun x => x.1.entry x.2) (fun x => by simp [Arrival.entry]), List.map_map]
    rfl

/-- From the empty deferral state, up to the first `End` that makes the statement counters
equal, nothing is called; that `End` calls the function of every request exactly once, with
the arguments of its arrival, by team, thread and arrival, and leaves the state empty. -/
theorem deferred_flush (results : ℕ → Word) (pre : List (Arrival ι ρ)) (last : Arrival ι ρ)
    (hident : ∀ r ∈ pre ++ [last],
      r.req.thread_num < r.req.num_threads ∧ r.req.team_num < r.req.num_teams)
    (hpre : ∀ p, p <+: pre → ¬ Closes p) (hlast : Closes (pre ++ [last])) :
    ∃ s s' : State ι ρ, serveAll results State.init pre = some s ∧ s.called = [] ∧
      serve results s last = some (s', .success) ∧
      (∃ order : List (Arrival ι ρ × ℕ), order.Perm (pre ++ [last]).zipIdx ∧
        order.Pairwise Before ∧
        s'.called.map Called.signature = order.map fun x => x.1.signature) ∧
      s'.deferred_fn_count = 0 ∧ s'.deferred_begin_statements = 0 ∧
      s'.deferred_end_statements = 0 ∧ s'.max_num_threads = 0 ∧ s'.max_num_teams = 0 ∧
      s'.deferred_fns.entries = [] := by
  obtain ⟨s, hs, hrec⟩ := serveAll_recorded results pre hpre
  have hfull := hrec.record last
  have htrigger := (hrec.triggers_iff last).mpr hlast
  have hruns : ∀ q ∈ (s.record last.req last.return_value last.origin).deferred_fns.entries,
      q.Runs := by
    rw [hfull.entries]
    intro q hq
    obtain ⟨x, -, rfl⟩ := List.mem_map.mp hq
    exact x.1.req.entry_runs _ _ _
  obtain ⟨s', calls, hflush, hcalled, hsig, hfns, hrest⟩ :=
    flush_of_runs results rfl hfull.teams_lt hfull.threads_lt hruns
  obtain ⟨order, hperm, hsorted, hscan⟩ := hfull.scan hident
  refine ⟨s, s', hs, hrec.called, ?_, ⟨order, hperm, hsorted, ?_⟩, hrest.1, hrest.2.1, hrest.2.2.1,
    hrest.2.2.2.1, hrest.2.2.2.2, by rw [hfns]; rfl⟩
  · rw [serve, fortranRtService_stub _ _ _ _ _ hrec.not_freed, if_pos htrigger, hflush]
  · rw [hcalled, hfull.called, List.nil_append, hsig]
    exact hscan

-- The arguments that the requests of the runs below send.
theorem accepts_begin : DeviceRt.accepts .beginExternalListOutput
    [.word 6, .str [97], .word 3] := rfl
theorem accepts_integer : DeviceRt.accepts .outputInteger32 [.word 0, .word 41] := rfl
theorem accepts_end : DeviceRt.accepts .endIoStatement [.word 0] := rfl

/-- A request of team 0 of 1 and thread `n` of 2. -/
def requestOf (fn : DeviceRt) (n : BitVec 32) (args : List ArgVal) (h : fn.accepts args) :
    Arrival ℕ ℕ :=
  ⟨⟨fn, n, 2, 0, 1, args, h⟩, 0, 0⟩

/-- Thread 1 begins first and thread 0 ends last. -/
def twoStatements : List (Arrival ℕ ℕ) :=
  [requestOf .beginExternalListOutput 1 [.word 6, .str [97], .word 3] accepts_begin,
    requestOf .beginExternalListOutput 0 [.word 6, .str [97], .word 3] accepts_begin,
    requestOf .outputInteger32 1 [.word 0, .word 41] accepts_integer,
    requestOf .endIoStatement 1 [.word 0] accepts_end]

theorem deferred_flush_twoStatements : ∃ s s' : State ℕ ℕ,
    serveAll (fun n => BitVec.ofNat 64 n) State.init twoStatements = some s ∧ s.called = [] ∧
      serve (fun n => BitVec.ofNat 64 n) s (requestOf .endIoStatement 0 [.word 0] rfl) =
        some (s', .success) ∧ s'.deferred_fns.entries = [] := by
  obtain ⟨s, s', hs, hcalled, hserve, -, -, -, -, -, -, hempty⟩ :=
    deferred_flush (fun n => BitVec.ofNat 64 n) twoStatements
      (requestOf .endIoStatement 0 [.word 0] rfl) (by decide)
      (fun p hp => (show ∀ p ∈ twoStatements.inits, ¬ Closes p by decide) p
        ((List.mem_inits p _).mpr hp)) (by decide)
  exact ⟨s, s', hs, hcalled, hserve, hempty⟩

end Aomp.Fortran
