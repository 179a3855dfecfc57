import Aomp.Foundations.Lifetime
import Aomp.Fortran.Flush

/-!
# The lifetime of the deferral list

The service allocates the list when the pointer to it is null, and a flush deletes the list but
leaves the pointer. So the requests after a flush find a list that is freed.
-/
namespace Aomp.Fortran

open Foundations Hostexec

variable {ι ρ : Type} {results : ℕ → Word} {s s' : State ι ρ}

def DeferredFns.lifetime : DeferredFns ι ρ → Lifetime
  | .null => .null
  | .live _ => .live
  | .freed => .freed

/-- `if (!_deferred_fns_ptr)` -/
def State.allocates (s : State ι ρ) : List Access :=
  match s.deferred_fns with
  | .null => [.new]
  | _ => []

/-- What `if (run_deferred_functions)` does to the list: the loops over it, and after them
the loop that frees the entries, `clear` and `delete`. -/
def flushAccesses (results : ℕ → Word) (s : State ι ρ) : List Access :=
  match flush results s with
  | some (_, .success) => [.use, .use, .use, .delete]
  | _ => [.use]

/-- What a request does to the list, up to a `push_back` to a list that is freed. -/
def listAccesses (results : ℕ → Word) (s : State ι ρ) (return_value : ρ) (origin : ι)
    (req : Request) : List Access :=
  if req.a.length = 0 then []
  else s.allocates ++
    match DeviceRt.ofIdx req.DeviceRuntime_idx with
    | none => []
    | some fn =>
      if fn.deferForReorder then
        match copyStrings fn req.a with
        | none => []
        | some a => .use ::
          match (s.allocate.countStatement fn).defer fn req.DeviceRuntime_idx a return_value origin with
          | none => []
          | some s =>
            if fn = .endIoStatement ∧ s.deferred_end_statements = s.deferred_begin_statements then
              flushAccesses results s
            else []
      else []

theorem allocate_lifetime (s : State ι ρ) :
    s.allocate.deferred_fns.lifetime = s.deferred_fns.lifetime.afterAll s.allocates := by
  unfold State.allocate State.allocates
  cases h : s.deferred_fns <;> simp [h, DeferredFns.lifetime, Lifetime.after]

theorem State.call_deferred_fns {fnptr : DeviceRt} {args : List ArgVal} {rv : ρ} {o : ι}
    (h : s.call results fnptr args rv o = some s') : s'.deferred_fns = s.deferred_fns := by
  obtain ⟨host, -, rfl⟩ := Option.map_eq_some_iff.mp h
  rfl

theorem runDeferred_deferred_fns {qs : List (Entry ι ρ)} {rc : ServiceRc}
    (h : runDeferred results s qs = some (s', rc)) : s'.deferred_fns = s.deferred_fns := by
  induction qs generalizing s with
  | nil =>
    obtain ⟨rfl, -⟩ := Prod.mk.inj (Option.some.inj h)
    rfl
  | cons q qs ih =>
    rw [runDeferred] at h
    split_ifs at h with hq
    · obtain ⟨u, hcall, hrest⟩ := Option.bind_eq_some_iff.mp h
      exact (ih hrest).trans (State.call_deferred_fns hcall)
    · obtain ⟨rfl, -⟩ := Prod.mk.inj (Option.some.inj h)
      rfl

theorem flush_lifetime {rc : ServiceRc} (h : flush results s = some (s', rc)) :
    s'.deferred_fns.lifetime = s.deferred_fns.lifetime.afterAll (flushAccesses results s) := by
  have hflush := h
  unfold flush at h
  split at h
  · rename_i fns hfns
    split_ifs at h with hbound
    obtain ⟨⟨u, rc'⟩, hrun, hrest⟩ := Option.map_eq_some_iff.mp h
    have hkept := runDeferred_deferred_fns hrun
    unfold flushAccesses
    rw [hflush, hfns]
    cases rc' with
    | success =>
      obtain ⟨rfl, rfl⟩ := Prod.mk.inj hrest
      rfl
    | errorInvalidRequest =>
      obtain ⟨rfl, rfl⟩ := Prod.mk.inj hrest
      rw [hkept, hfns]
      rfl
  · cases h

theorem State.defer_live {fn : DeviceRt} {idx : Word} {a : List ArgVal} {rv : ρ} {o : ι}
    (h : s.defer fn idx a rv o = some s') :
    s.deferred_fns.lifetime = .live ∧ s'.deferred_fns.lifetime = .live := by
  unfold State.defer at h
  split at h
  · rename_i fns _ _ _ _ _ hfns
    obtain rfl := Option.some.inj h
    exact ⟨by rw [hfns]; rfl, rfl⟩
  · cases h

theorem countStatement_lifetime (s : State ι ρ) (fn : DeviceRt) :
    (s.countStatement fn).deferred_fns = s.deferred_fns := by
  cases fn <;> rfl

/-- The accesses account for what the service does to the pointer. -/
theorem fortranRtService_lifetime {rv : ρ} {o : ι} {req : Request} {rc : ServiceRc}
    (h : fortranRtService results s rv o req = some (s', rc)) :
    s'.deferred_fns.lifetime = s.deferred_fns.lifetime.afterAll (listAccesses results s rv o req) := by
  unfold fortranRtService at h
  unfold listAccesses
  by_cases ha : req.a.length = 0
  · rw [if_pos ha] at h ⊢
    obtain ⟨rfl, -⟩ := Prod.mk.inj (Option.some.inj h)
    rfl
  · rw [if_neg ha] at h ⊢
    rw [Lifetime.afterAll_append, ← allocate_lifetime]
    cases hfn : DeviceRt.ofIdx req.DeviceRuntime_idx with
    | none =>
      simp only [hfn] at h
      split_ifs at h with hcallable
      obtain ⟨rfl, -⟩ := Prod.mk.inj (Option.some.inj h)
      rfl
    | some fn =>
      simp only [hfn] at h
      by_cases hdefer : fn.deferForReorder
      · rw [if_pos hdefer] at h
        simp only [if_pos hdefer]
        obtain ⟨a, hcopy, h⟩ := Option.bind_eq_some_iff.mp h
        obtain ⟨u, hu, h⟩ := Option.bind_eq_some_iff.mp h
        obtain ⟨hbefore, hlive⟩ := State.defer_live hu
        rw [countStatement_lifetime] at hbefore
        rw [hcopy, hbefore]
        dsimp only
        rw [hu, Lifetime.afterAll_cons]
        dsimp only
        split_ifs at h ⊢ with htrigger
        · rw [flush_lifetime h, hlive]
          rfl
        · obtain ⟨rfl, -⟩ := Prod.mk.inj (Option.some.inj h)
          exact hlive
      · rw [if_neg hdefer] at h
        simp only [if_neg hdefer]
        split_ifs at h with hcallable
        · obtain ⟨u, hu, heq⟩ := Option.map_eq_some_iff.mp h
          obtain ⟨rfl, -⟩ := Prod.mk.inj heq
          rw [State.call_deferred_fns hu]
          rfl
        · obtain ⟨rfl, -⟩ := Prod.mk.inj (Option.some.inj h)
          rfl

/-- What the stubs send. `_FortranAAbort` and `_FortranAStopStatementText` do not send the
identity of the thread, and the former sends no argument at all. -/
inductive RtCall
  | deferred (r : StubRequest)
  | abort
  | stopStatementText (errmsg : List UInt8) (a1 : Word) (a2 a3 : Bool)

def RtCall.toRequest : RtCall → Request
  | deferred r => r.toRequest
  | abort => ⟨DeviceRt.abort.idx, []⟩
  | stopStatementText errmsg a1 a2 a3 => ⟨DeviceRt.stopStatementText.idx,
      [.str errmsg, .word a1, .word (BitVec.ofNat 64 a2.toNat), .word (BitVec.ofNat 64 a3.toNat)]⟩

structure RtRequest (ι ρ : Type) where
  call : RtCall
  return_value : ρ
  origin : ι

def RtRequest.arrival (r : RtRequest ι ρ) : Option (Arrival ι ρ) :=
  match r.call with
  | .deferred req => some ⟨req, r.return_value, r.origin⟩
  | _ => none

def RtRequest.serve (results : ℕ → Word) (s : State ι ρ) (r : RtRequest ι ρ) :
    Option (State ι ρ × ServiceRc) :=
  fortranRtService results s r.return_value r.origin r.call.toRequest

def RtRequest.accesses (results : ℕ → Word) (s : State ι ρ) (r : RtRequest ι ρ) : List Access :=
  listAccesses results s r.return_value r.origin r.call.toRequest

def runAccesses (results : ℕ → Word) : State ι ρ → List (RtRequest ι ρ) → List Access
  | _, [] => []
  | s, r :: rs => r.accesses results s ++
    match r.serve results s with
    | some (s, _) => runAccesses results s rs
    | none => []

/-- Every access finds the list live, and it is freed at most once per allocation. -/
def ListKept (results : ℕ → Word) (rs : List (RtRequest ι ρ)) : Prop :=
  Lifetime.null.Safe (runAccesses results State.init rs) ∧
    ∀ pre, pre <+: runAccesses results State.init rs → pre.count .delete ≤ pre.count .new

/-- No request of a deferred function follows the `End` that closes the last open statement. -/
def OneFlush (rs : List (RtRequest ι ρ)) : Prop :=
  ∀ pre post, rs.filterMap RtRequest.arrival = pre ++ post → Closes pre → post = []

variable (results) in
theorem accesses_deferred (hlive : s.deferred_fns ≠ .freed) (r : StubRequest) (rv : ρ) (o : ι) :
    listAccesses results s rv o r.toRequest = s.allocates ++ .use ::
      if s.triggers r then flushAccesses results (s.record r rv o) else [] := by
  have hdefer := s.defer_stub r rv o hlive
  have htriggers := s.triggers_iff r rv o
  have hcopy := r.copyStrings_eq
  rw [listAccesses, if_neg (by simp [StubRequest.toRequest])]
  simp only [StubRequest.toRequest, DeviceRt.ofIdx_idx, r.deferForReorder, if_true] at hcopy ⊢
  simp only [hcopy, hdefer, htriggers]

theorem accesses_deferred_freed (hfreed : s.deferred_fns = .freed) (r : StubRequest) (rv : ρ) (o : ι) :
    ∃ ops, listAccesses results s rv o r.toRequest = .use :: ops := by
  have halloc : s.allocates = [] := by
    unfold State.allocates
    rw [hfreed]
  have hcopy := r.copyStrings_eq
  rw [listAccesses, if_neg (by simp [StubRequest.toRequest]), halloc]
  simp only [StubRequest.toRequest, DeviceRt.ofIdx_idx, r.deferForReorder, if_true] at hcopy ⊢
  rw [hcopy]
  exact ⟨_, rfl⟩

theorem safe_allocates (s : State ι ρ) : s.deferred_fns.lifetime.Safe s.allocates := by
  unfold State.allocates
  split
  · exact Lifetime.safe_cons.mpr ⟨trivial, Lifetime.safe_nil⟩
  · exact Lifetime.safe_nil

theorem Recorded.allocate {l : List (Arrival ι ρ)} (h : Recorded s l) : Recorded s.allocate l := by
  unfold State.allocate
  split
  · rename_i hnull
    have hentries := h.entries
    rw [hnull] at hentries
    exact ⟨by simp, hentries, h.count, h.begins, h.ends, h.threads, h.teams, h.threads_lt, h.teams_lt,
      h.called⟩
  · exact h

variable (results) in
theorem Recorded.flush {l : List (Arrival ι ρ)} (h : Recorded s l)
    (hlive : s.deferred_fns = .live s.deferred_fns.entries) :
    ∃ s', Fortran.flush results s = some (s', .success) ∧ s'.deferred_fns = .freed := by
  have hruns : ∀ q ∈ s.deferred_fns.entries, q.Runs := by
    rw [h.entries]
    intro q hq
    obtain ⟨x, -, rfl⟩ := List.mem_map.mp hq
    exact x.1.req.entry_runs _ _ _
  obtain ⟨s', calls, hflush, -, -, hfns, -⟩ :=
    flush_of_runs results hlive h.teams_lt h.threads_lt hruns
  exact ⟨s', hflush, hfns⟩

theorem direct_request {r : RtRequest ι ρ} (h : r.arrival = none) :
    (r.accesses results s = [] ∧ r.serve results s = some (s, .errorInvalidRequest)) ∨
      (r.accesses results s = s.allocates ∧
        r.serve results s = some (s.allocate, .errorInvalidRequest)) := by
  obtain ⟨call, rv, o⟩ := r
  cases call with
  | deferred req => cases h
  | abort => exact .inl ⟨rfl, rfl⟩
  | stopStatementText errmsg a1 a2 a3 => exact .inr ⟨List.append_nil _, rfl⟩

/-- Once the list is freed, every request of a deferred function uses it. -/
theorem safe_of_freed (hfreed : s.deferred_fns = .freed) (rs : List (RtRequest ι ρ)) :
    Lifetime.freed.Safe (runAccesses results s rs) ↔ rs.filterMap RtRequest.arrival = [] := by
  induction rs with
  | nil => simp [runAccesses]
  | cons r rs ih =>
    rw [runAccesses, Lifetime.safe_append]
    cases harrival : r.arrival with
    | some x =>
      obtain ⟨call, rv, o⟩ := r
      cases call with
      | abort => cases harrival
      | stopStatementText errmsg a1 a2 a3 => cases harrival
      | deferred req =>
        obtain ⟨ops, hops⟩ := accesses_deferred_freed hfreed req rv o
        have huse : RtRequest.accesses results s ⟨.deferred req, rv, o⟩ = .use :: ops := hops
        rw [List.filterMap_cons_some harrival, huse, Lifetime.safe_cons]
        simp [Lifetime.Allows]
    | none =>
      have hallocates : s.allocates = [] := by
        unfold State.allocates
        rw [hfreed]
      have hallocate : s.allocate = s := by
        unfold State.allocate
        rw [hfreed]
      rw [List.filterMap_cons_none harrival, ← ih]
      rcases direct_request harrival with ⟨hops, hserve⟩ | ⟨hops, hserve⟩
      · rw [hops, hserve]
        simp
      · rw [hops, hserve, hallocates, hallocate]
        simp

/-- The condition for the requests that follow `p`. -/
def FlushLast (p d : List (Arrival ι ρ)) : Prop :=
  ∀ pre post, d = pre ++ post → Closes (p ++ pre) → post = []

theorem flushLast_cons_of_closes {p d : List (Arrival ι ρ)} {r : Arrival ι ρ} (hp : ¬ Closes p)
    (hr : Closes (p ++ [r])) : FlushLast p (r :: d) ↔ d = [] := by
  constructor
  · intro h
    exact h [r] d rfl hr
  · rintro rfl pre post hsplit hclose
    cases pre with
    | nil => exact absurd (List.append_nil p ▸ hclose) hp
    | cons x pre =>
      have hnil := (List.cons.inj hsplit).2
      exact (List.append_eq_nil_iff.mp hnil.symm).2

theorem flushLast_cons {p d : List (Arrival ι ρ)} {r : Arrival ι ρ} (hp : ¬ Closes p) :
    FlushLast p (r :: d) ↔ FlushLast (p ++ [r]) d := by
  constructor
  · intro h pre post hsplit hclose
    rw [List.append_assoc] at hclose
    exact h (r :: pre) post (by rw [hsplit]; rfl) hclose
  · intro h pre post hsplit hclose
    cases pre with
    | nil => exact absurd (List.append_nil p ▸ hclose) hp
    | cons x pre =>
      obtain ⟨rfl, hd⟩ := List.cons.inj hsplit
      exact h pre post hd (by rwa [List.append_assoc])

theorem lifetime_ne_freed {l : List (Arrival ι ρ)} (h : Recorded s l) :
    s.deferred_fns.lifetime.afterAll s.allocates = .live := by
  have hnot := h.not_freed
  unfold State.allocates
  cases hfns : s.deferred_fns with
  | null => rfl
  | live fns => rfl
  | freed => exact absurd hfns hnot

variable (results) in
/-- Before the first flush the list is live, and it stays so unless the flush comes last. -/
theorem safe_of_recorded {p : List (Arrival ι ρ)} (h : Recorded s p) (hp : ¬ Closes p)
    (rs : List (RtRequest ι ρ)) : s.deferred_fns.lifetime.Safe (runAccesses results s rs) ↔
      FlushLast p (rs.filterMap RtRequest.arrival) := by
  induction rs generalizing s p with
  | nil =>
    rw [List.filterMap_nil]
    apply iff_of_true Lifetime.safe_nil
    intro pre post hsplit _
    exact (List.append_eq_nil_iff.mp hsplit.symm).2
  | cons r rs ih =>
    rw [runAccesses, Lifetime.safe_append]
    have hlive := lifetime_ne_freed h
    have hsafe := safe_allocates s
    cases harrival : r.arrival with
    | none =>
      rw [List.filterMap_cons_none harrival]
      rcases direct_request harrival with ⟨hops, hserve⟩ | ⟨hops, hserve⟩
      · rw [hops, hserve]
        simpa using ih h hp
      · have hrest := ih h.allocate hp
        rw [allocate_lifetime] at hrest
        rw [hops, hserve]
        exact (and_iff_right hsafe).trans hrest
    | some x =>
      obtain ⟨call, rv, o⟩ := r
      cases call with
      | abort => cases harrival
      | stopStatementText errmsg a1 a2 a3 => cases harrival
      | deferred req =>
        have hx : (⟨req, rv, o⟩ : Arrival ι ρ) = x := Option.some.inj harrival
        have hrecord := h.record x
        have htriggers := h.triggers_iff x
        have hops := accesses_deferred results h.not_freed req rv o
        have hserve := fortranRtService_stub results s req rv o h.not_freed
        subst hx
        rw [List.filterMap_cons_some harrival]
        unfold RtRequest.accesses RtRequest.serve RtCall.toRequest
        dsimp only at *
        rw [hops, hserve, Lifetime.safe_append, Lifetime.afterAll_append, hlive, Lifetime.safe_cons,
          Lifetime.afterAll_cons]
        by_cases hclose : Closes (p ++ [⟨req, rv, o⟩])
        · obtain ⟨s', hflush, hfreed⟩ := hrecord.flush results rfl
          have hall : flushAccesses results (s.record req rv o) = [.use, .use, .use, .delete] := by
            unfold flushAccesses
            rw [hflush]
          rw [flushLast_cons_of_closes hp hclose, ← safe_of_freed hfreed rs,
            if_pos (htriggers.mpr hclose),
            if_pos (htriggers.mpr hclose), hflush, hall]
          refine and_iff_right ⟨hsafe, rfl, ?_⟩
          decide
        · have hrest := ih hrecord hclose
          rw [flushLast_cons hp, if_neg (mt htriggers.mp hclose), if_neg (mt htriggers.mp hclose)]
          exact (and_iff_right ⟨hsafe, rfl, Lifetime.safe_nil⟩).trans hrest

/-- The list is never used after it was released if and only if the first flush is the end of
all requests of deferred functions. -/
theorem listKept_iff (results : ℕ → Word) (rs : List (RtRequest ι ρ)) :
    ListKept results rs ↔ OneFlush rs := by
  have hnil : ¬ Closes ([] : List (Arrival ι ρ)) := by
    rintro ⟨hlast, -⟩
    cases hlast
  have hsafe := safe_of_recorded results Recorded.init hnil rs
  have hcount : ListKept results rs ↔ Lifetime.null.Safe (runAccesses results State.init rs) :=
    and_iff_left_of_imp fun h pre hpre => h.delete_le_new hpre
  exact hcount.trans hsafe

/-- A statement that is printed, and the first request of a second one. -/
def twoPrints : List (RtRequest ℕ ℕ) :=
  [⟨.deferred ⟨.beginExternalListOutput, 0, 1, 0, 1, [.word 6, .str [97], .word 3],
      accepts_begin⟩, 0, 0⟩,
    ⟨.deferred ⟨.endIoStatement, 0, 1, 0, 1, [.word 0], accepts_end⟩, 0, 0⟩,
    ⟨.deferred ⟨.beginExternalListOutput, 0, 1, 0, 1, [.word 6, .str [97], .word 3],
      accepts_begin⟩, 0, 0⟩]

theorem not_listKept_twoPrints : ¬ ListKept (fun _ => 0) twoPrints := by
  rintro ⟨hsafe, -⟩
  exact absurd hsafe (by decide +kernel)

end Aomp.Fortran
