import Aomp.Fortran.DeferredCalls

/-!
# Requests of the device stubs

The stubs send the identity of the thread and the arguments of the function. On such a
request the service records one entry, and flushes when it is the `End` that closes the
last open statement.
-/
namespace Aomp.Fortran

open Foundations Hostexec

variable {ι ρ : Type}

/-- The arguments that the stub of a deferred function sends after the identity. -/
def DeviceRt.accepts : DeviceRt → List ArgVal → Bool
  | .beginExternalListOutput, [.word _, .str _, .word _] => true
  | .outputAscii, [.word _, .str _, .word _] => true
  | .outputInteger32, [.word _, .word _] => true
  | .endIoStatement, [.word _] => true
  | .outputInteger8, [.word _, .word _] => true
  | .outputInteger16, [.word _, .word _] => true
  | .outputInteger64, [.word _, .word _] => true
  | .outputReal32, [.word _, .word _] => true
  | .outputReal64, [.word _, .word _] => true
  | .outputComplex32, [.word _, .word _, .word _] => true
  | .outputComplex64, [.word _, .word _, .word _] => true
  | .outputLogical, [.word _, .word _] => true
  | _, _ => false

/-- A request of a deferred function. The identity numbers are 32-bit integers, so they
arrive zero-extended. -/
structure StubRequest where
  fn : DeviceRt
  thread_num : BitVec 32
  num_threads : BitVec 32
  team_num : BitVec 32
  num_teams : BitVec 32
  args : List ArgVal
  accepts : fn.accepts args

namespace StubRequest

def toRequest (r : StubRequest) : Request where
  DeviceRuntime_idx := r.fn.idx
  a := .word (r.thread_num.setWidth 64) :: .word (r.num_threads.setWidth 64) ::
    .word (r.team_num.setWidth 64) :: .word (r.num_teams.setWidth 64) :: r.args

/-- The argument values as they are when the request arrives: a string of `OutputAscii`
has the length given by the next argument at most. -/
def recorded (r : StubRequest) : List ArgVal :=
  match r.fn, r.args with
  | .outputAscii, [c, .str s, .word len] => [c, .str (s.take len.toNat), .word len]
  | _, args => args

def key (r : StubRequest) : ℕ × ℕ := (r.team_num.toNat, r.thread_num.toNat)

def entry (r : StubRequest) (dfnid : BitVec 32) (return_value : ρ) (origin : ι) : Entry ι ρ where
  NumArgs := r.recorded.length
  fnptr := r.fn
  fn_idx := r.fn.idx
  dfnid := dfnid
  arg_array := r.recorded
  thread_num := r.thread_num.setWidth 64
  num_threads := r.num_threads.setWidth 64
  team_num := r.team_num.setWidth 64
  num_teams := r.num_teams.setWidth 64
  return_value := return_value
  origin := origin

theorem deferForReorder (r : StubRequest) : r.fn.deferForReorder := by
  have h := r.accepts
  cases hfn : r.fn <;> simp [hfn, DeviceRt.accepts, DeviceRt.deferForReorder] at h ⊢

theorem copyStrings_eq (r : StubRequest) :
    copyStrings r.fn r.toRequest.a = some (.word (r.thread_num.setWidth 64) ::
      .word (r.num_threads.setWidth 64) :: .word (r.team_num.setWidth 64) ::
        .word (r.num_teams.setWidth 64) :: r.recorded) := by
  obtain ⟨fn, tn, nt, tm, nm, args, h⟩ := r
  unfold DeviceRt.accepts at h
  split at h <;> first | rfl | simp at h

end StubRequest

def Entry.key (q : Entry ι ρ) : ℕ × ℕ := (q.team_num.toNat, q.thread_num.toNat)

@[simp] theorem StubRequest.entry_key (r : StubRequest) (dfnid : BitVec 32) (rv : ρ) (o : ι) :
    (r.entry dfnid rv o).key = r.key := by
  simp only [Entry.key, StubRequest.entry, StubRequest.key, BitVec.toNat_setWidth]
  have := r.team_num.isLt
  have := r.thread_num.isLt
  ext <;> simp <;> omega

namespace State

def record (s : State ι ρ) (r : StubRequest) (return_value : ρ) (origin : ι) : State ι ρ :=
  let c := s.countStatement r.fn
  { c with
    deferred_fns :=
      .live (s.deferred_fns.entries ++ [r.entry s.deferred_fn_count return_value origin])
    deferred_fn_count := s.deferred_fn_count + 1
    max_num_threads := if s.max_num_threads < r.num_threads.setWidth 64 then
      r.num_threads.setWidth 64 else s.max_num_threads
    max_num_teams := if s.max_num_teams < r.num_teams.setWidth 64 then
      r.num_teams.setWidth 64 else s.max_num_teams }

/-- The request is the `End` that makes the two statement counters equal. -/
def triggers (s : State ι ρ) (r : StubRequest) : Bool :=
  r.fn = .endIoStatement ∧ s.deferred_end_statements + 1 = s.deferred_begin_statements

section

variable (s : State ι ρ) (r : StubRequest) (rv : ρ) (o : ι)

@[simp] theorem record_entries : (s.record r rv o).deferred_fns.entries =
    s.deferred_fns.entries ++ [r.entry s.deferred_fn_count rv o] := rfl

@[simp] theorem record_called : (s.record r rv o).called = s.called := by
  cases h : r.fn <;> simp [record, countStatement, h]

theorem record_begin : (s.record r rv o).deferred_begin_statements =
    if r.fn = .beginExternalListOutput then s.deferred_begin_statements + 1
    else s.deferred_begin_statements := by
  cases h : r.fn <;> simp [record, countStatement, h]

theorem record_end : (s.record r rv o).deferred_end_statements =
    if r.fn = .endIoStatement then s.deferred_end_statements + 1
    else s.deferred_end_statements := by
  cases h : r.fn <;> simp [record, countStatement, h]

end

end State

theorem State.defer_countStatement (s : State ι ρ) (r : StubRequest) (rv : ρ) (o : ι)
    (hlive : s.deferred_fns = .live s.deferred_fns.entries) :
    (s.countStatement r.fn).defer r.fn r.fn.idx (.word (r.thread_num.setWidth 64) ::
      .word (r.num_threads.setWidth 64) :: .word (r.team_num.setWidth 64) ::
        .word (r.num_teams.setWidth 64) :: r.recorded) rv o = some (s.record r rv o) := by
  have hfns : (s.countStatement r.fn).deferred_fns = .live s.deferred_fns.entries := by
    rw [← hlive]
    cases r.fn <;> rfl
  have hrest : (s.countStatement r.fn).deferred_fn_count = s.deferred_fn_count ∧
      (s.countStatement r.fn).max_num_threads = s.max_num_threads ∧
      (s.countStatement r.fn).max_num_teams = s.max_num_teams := by
    cases r.fn <;> exact ⟨rfl, rfl, rfl⟩
  simp only [State.defer, hfns, hrest, State.record]
  rfl

theorem State.allocate_spec (s : State ι ρ) (r : StubRequest) (rv : ρ) (o : ι)
    (hlive : s.deferred_fns ≠ .freed) :
    s.allocate.deferred_fns = .live s.allocate.deferred_fns.entries ∧
      s.allocate.record r rv o = s.record r rv o := by
  cases hd : s.deferred_fns with
  | null =>
    have hs : s.allocate = { s with deferred_fns := .live [] } := by simp [State.allocate, hd]
    rw [hs]
    refine ⟨rfl, ?_⟩
    cases hfn : r.fn <;> simp [State.record, State.countStatement, hfn, hd, DeferredFns.entries]
  | live l =>
    have hs : s.allocate = s := by simp [State.allocate, hd]
    rw [hs, hd]
    exact ⟨rfl, rfl⟩
  | freed => exact absurd hd hlive

/-- What a stub sends is recorded in the list, which is allocated for the first request. -/
theorem State.defer_stub (s : State ι ρ) (r : StubRequest) (rv : ρ) (o : ι)
    (hlive : s.deferred_fns ≠ .freed) :
    (s.allocate.countStatement r.fn).defer r.fn r.fn.idx (.word (r.thread_num.setWidth 64) ::
      .word (r.num_threads.setWidth 64) :: .word (r.team_num.setWidth 64) ::
        .word (r.num_teams.setWidth 64) :: r.recorded) rv o = some (s.record r rv o) := by
  obtain ⟨halloc, hrecord⟩ := s.allocate_spec r rv o hlive
  rw [s.allocate.defer_countStatement r rv o halloc, hrecord]

/-- The counters are equal after the request exactly when it ends the last open statement. -/
theorem State.triggers_iff (s : State ι ρ) (r : StubRequest) (rv : ρ) (o : ι) :
    (r.fn = .endIoStatement ∧ (s.record r rv o).deferred_end_statements =
      (s.record r rv o).deferred_begin_statements) ↔ s.triggers r = true := by
  simp only [State.triggers, decide_eq_true_eq]
  apply and_congr_right
  intro hfn
  simp [State.record_end, State.record_begin, hfn]

/-- What the service does with a request of a stub, as long as the list was not freed. -/
theorem fortranRtService_stub (results : ℕ → Word) (s : State ι ρ) (r : StubRequest) (rv : ρ)
    (o : ι) (hlive : s.deferred_fns ≠ .freed) :
    fortranRtService results s rv o r.toRequest =
      if s.triggers r then flush results (s.record r rv o) else some (s.record r rv o, .success) := by
  have hdefer := s.defer_stub r rv o hlive
  have htriggers := s.triggers_iff r rv o
  have hcopy := r.copyStrings_eq
  rw [fortranRtService, if_neg (by simp [StubRequest.toRequest])]
  simp only [StubRequest.toRequest, DeviceRt.ofIdx_idx, r.deferForReorder, if_true] at hcopy ⊢
  simp only [hcopy, Option.bind_some, hdefer, htriggers]

/-- An entry whose call goes through. -/
structure Entry.Runs (q : Entry ι ρ) : Prop where
  callable : callable q.NumArgs
  length : q.arg_array.length = q.NumArgs
  wrapper : ∀ cookie, (vWrapper cookie q.fnptr q.arg_array).isSome

theorem StubRequest.entry_runs (r : StubRequest) (dfnid : BitVec 32) (rv : ρ) (o : ι) :
    (r.entry dfnid rv o).Runs := by
  refine ⟨?_, rfl, fun cookie => ?_⟩
  all_goals
    obtain ⟨fn, tn, nt, tm, nm, args, h⟩ := r
    unfold DeviceRt.accepts at h
    split at h <;> first | rfl | simp at h

end Aomp.Fortran
