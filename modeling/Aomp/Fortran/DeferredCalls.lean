import Mathlib.Tactic
import Aomp.Foundations.BucketScan
import Aomp.Hostexec.Pointer

/-!
# The Fortran runtime service

`fortran_rt_service` defers the I/O calls of the device and runs them on the host when
the last open statement ends, ordered by team and thread. A request is taken as
`hostrpc_build_vargs_array` leaves it: the function index and the array `a`. The host
runtime functions are not part of the source; `results n` is what the `n`-th of their
calls returns. `none` is undefined behaviour or no return, and allocations succeed.
-/
namespace Aomp.Fortran

open Foundations Hostexec

/-- `fortran_device_rt_idx` without `_FortranAio_INVALID`. -/
inductive DeviceRt
  | beginExternalListOutput
  | outputAscii
  | outputInteger32
  | endIoStatement
  | outputInteger8
  | outputInteger16
  | outputInteger64
  | outputReal32
  | outputReal64
  | outputComplex32
  | outputComplex64
  | outputLogical
  | abort
  | stopStatementText
  deriving DecidableEq

namespace DeviceRt

def all : List DeviceRt :=
  [beginExternalListOutput, outputAscii, outputInteger32, endIoStatement, outputInteger8,
    outputInteger16, outputInteger64, outputReal32, outputReal64, outputComplex32, outputComplex64,
    outputLogical, abort, stopStatementText]

def idx (fn : DeviceRt) : Word := BitVec.ofNat 64 (all.idxOf fn + 1)

/-- The case of the switch that an index selects; `none` is its default. -/
def ofIdx (w : Word) : Option DeviceRt := if w = 0 then none else all[w.toNat - 1]?

theorem ofIdx_idx (fn : DeviceRt) : ofIdx fn.idx = some fn := by
  cases fn <;> decide

/-- `defer_for_reorder` -/
def deferForReorder : DeviceRt → Bool
  | abort | stopStatementText => false
  | _ => true

end DeviceRt

/-- An entry of the argument array: a word, or a pointer to a string without its NUL. -/
inductive ArgVal
  | word (w : Word)
  | str (s : List UInt8)
  deriving DecidableEq

/-- The types that the wrappers read with `va_arg`. -/
inductive VaType
  | int32
  | int64
  | ptr

/-- `va_arg` reads the low bits of the 8-byte slot. -/
def vaArg : VaType → ArgVal → ArgVal
  | .int32, .word w => .word ((w.setWidth 32).setWidth 64)
  | _, v => v

/-- A call of a host runtime function. The conversions from the words that `va_arg` reads
to the parameter types are those of the function named. -/
structure HostCall where
  fn : DeviceRt
  cookie : Option Word
  args : List ArgVal
  deriving DecidableEq

def V_plain (fn : DeviceRt) (types : List VaType) (a : List ArgVal) : Option HostCall :=
  if a.length < types.length then none else some ⟨fn, none, List.zipWith vaArg types a⟩

/-- A wrapper that replaces its first argument by `_list_started_cookie`. -/
def V_withCookie (fn : DeviceRt) (types : List VaType) (cookie : Word) :
    List ArgVal → Option HostCall
  | [] => none
  | _ :: a =>
    if a.length < types.length then none else some ⟨fn, some cookie, List.zipWith vaArg types a⟩

def V_FortranAioBeginExternalListOutput := V_plain .beginExternalListOutput [.int32, .ptr, .int32]
def V_FortranAioOutputAscii := V_withCookie .outputAscii [.ptr, .int64]
def V_FortranAioOutputInteger32 := V_withCookie .outputInteger32 [.int32]
def V_FortranAioEndIoStatement := V_withCookie .endIoStatement []
def V_FortranAioOutputInteger8 := V_withCookie .outputInteger8 [.int32]
def V_FortranAioOutputInteger16 := V_withCookie .outputInteger16 [.int32]
def V_FortranAioOutputInteger64 := V_withCookie .outputInteger64 [.int32]
def V_FortranAioOutputReal32 := V_withCookie .outputReal32 [.int64]
def V_FortranAioOutputReal64 := V_withCookie .outputReal64 [.int64]
def V_FortranAioOutputComplex32 := V_withCookie .outputComplex32 [.int64, .int64]
def V_FortranAioOutputComplex64 := V_withCookie .outputComplex64 [.int64, .int64]
def V_FortranAioOutputLogical := V_withCookie .outputLogical [.int32]
def V_FortranAAbort := V_plain .abort []
def V_FortranAStopStatementText := V_plain .stopStatementText [.ptr, .int64, .int32, .int32]

/-- The wrapper that `fnptr` is set to, with `_list_started_cookie` and its arguments. -/
def vWrapper (cookie : Word) : DeviceRt → List ArgVal → Option HostCall
  | .beginExternalListOutput => V_FortranAioBeginExternalListOutput
  | .outputAscii => V_FortranAioOutputAscii cookie
  | .outputInteger32 => V_FortranAioOutputInteger32 cookie
  | .endIoStatement => V_FortranAioEndIoStatement cookie
  | .outputInteger8 => V_FortranAioOutputInteger8 cookie
  | .outputInteger16 => V_FortranAioOutputInteger16 cookie
  | .outputInteger64 => V_FortranAioOutputInteger64 cookie
  | .outputReal32 => V_FortranAioOutputReal32 cookie
  | .outputReal64 => V_FortranAioOutputReal64 cookie
  | .outputComplex32 => V_FortranAioOutputComplex32 cookie
  | .outputComplex64 => V_FortranAioOutputComplex64 cookie
  | .outputLogical => V_FortranAioOutputLogical cookie
  | .abort => V_FortranAAbort
  | .stopStatementText => V_FortranAStopStatementText

variable {ι ρ : Type}

/-- `deferred_entry_t`, without the pointer that is only freed. `ρ` is the type of
pointers to return values; `origin` names the request and is history. -/
structure Entry (ι ρ : Type) where
  NumArgs : ℕ
  fnptr : DeviceRt
  fn_idx : Word
  dfnid : BitVec 32
  arg_array : List ArgVal
  thread_num : Word
  num_threads : Word
  team_num : Word
  num_teams : Word
  return_value : ρ
  origin : ι

/-- What `_deferred_fns_ptr` points to. -/
inductive DeferredFns (ι ρ : Type)
  | null
  | live (fns : List (Entry ι ρ))
  | freed

def DeferredFns.entries : DeferredFns ι ρ → List (Entry ι ρ)
  | .live fns => fns
  | _ => []

/-- A call made through `hostrpc_call_fnptr`, which stores `result` in `*return_value`. -/
structure Called (ι ρ : Type) where
  fnptr : DeviceRt
  args : List ArgVal
  host : HostCall
  return_value : ρ
  result : Word
  origin : ι

/-- The static variables of the service; `called` is the history of its calls. -/
structure State (ι ρ : Type) where
  deferred_fns : DeferredFns ι ρ
  deferred_fn_count : BitVec 32
  deferred_begin_statements : BitVec 32
  deferred_end_statements : BitVec 32
  max_num_threads : Word
  max_num_teams : Word
  list_started_cookie : Word
  called : List (Called ι ρ)

def State.init : State ι ρ := ⟨.null, 0, 0, 0, 0, 0, 0, []⟩

/-- A request after `hostrpc_build_vargs_array`. -/
structure Request where
  DeviceRuntime_idx : Word
  a : List ArgVal

/-- The codes of `service_rc` that the service returns. -/
inductive ServiceRc
  | success
  | errorInvalidRequest
  deriving DecidableEq

def ServiceRc.code : ServiceRc → Word
  | .success => 0
  | .errorInvalidRequest => 10

def MAXVARGS : ℕ := 32

/-- The argument counts that the switch of `hostrpc_call_fnptr` has a case for. -/
def callable (NumArgs : ℕ) : Bool := 1 ≤ NumArgs && NumArgs ≤ MAXVARGS

/-- `hostrpc_call_fnptr` on a wrapper: the call, its result and its effect on the cookie. -/
def State.call (results : ℕ → Word) (s : State ι ρ) (fnptr : DeviceRt) (args : List ArgVal)
    (return_value : ρ) (origin : ι) : Option (State ι ρ) :=
  (vWrapper s.list_started_cookie fnptr args).map fun host =>
    let result := results s.called.length
    { s with
      list_started_cookie :=
        if fnptr = .beginExternalListOutput then result else s.list_started_cookie
      called := s.called ++ [⟨fnptr, args, host, return_value, result, origin⟩] }

/-- The calls of the flush, up to the first that `hostrpc_call_fnptr` refuses. -/
def runDeferred (results : ℕ → Word) :
    State ι ρ → List (Entry ι ρ) → Option (State ι ρ × ServiceRc)
  | s, [] => some (s, .success)
  | s, q :: qs =>
    if callable q.NumArgs then
      (s.call results q.fnptr (q.arg_array.take q.NumArgs) q.return_value q.origin).bind fun s =>
        runDeferred results s qs
    else some (s, .errorInvalidRequest)

def scan (max_num_teams max_num_threads : ℕ) (fns : List (Entry ι ρ)) : List (Entry ι ρ) :=
  (List.range max_num_teams).flatMap fun team_num =>
    (List.range max_num_threads).flatMap fun thread_num =>
      fns.filter fun q => thread_num = q.thread_num.toNat ∧ team_num = q.team_num.toNat

/-- The block `if (run_deferred_functions)`. -/
def flush (results : ℕ → Word) (s : State ι ρ) : Option (State ι ρ × ServiceRc) :=
  match s.deferred_fns with
  | .live fns =>
    -- the uint32_t loop counters never reach a larger bound
    if 2 ^ 32 ≤ s.max_num_teams.toNat ∨ 2 ^ 32 ≤ s.max_num_threads.toNat then none
    else
      (runDeferred results s (scan s.max_num_teams.toNat s.max_num_threads.toNat fns)).map
        fun (s, rc) =>
          if rc = .success then
            ({ s with
              deferred_fns := .freed
              deferred_fn_count := 0
              deferred_begin_statements := 0
              deferred_end_statements := 0
              max_num_threads := 0
              max_num_teams := 0 }, .success)
          else (s, rc)
  | _ => none

/-- The list is allocated on first use: `if (!_deferred_fns_ptr)`. -/
def State.allocate (s : State ι ρ) : State ι ρ :=
  match s.deferred_fns with
  | .null => { s with deferred_fns := .live [] }
  | _ => s

/-- The copies of strings that the switch makes in `a`. -/
def copyStrings (fn : DeviceRt) (a : List ArgVal) : Option (List ArgVal) :=
  match fn with
  | .beginExternalListOutput =>
    match (a[5]? : Option ArgVal) with
    | some (.str s) => some (a.set 5 (.str s))
    | _ => none
  | .outputAscii =>
    match (a[5]? : Option ArgVal), (a[6]? : Option ArgVal) with
    | some (.str s), some (.word len) => some (a.set 5 (.str (s.take len.toNat)))
    | _, _ => none
  | _ => some a

def State.countStatement (s : State ι ρ) : DeviceRt → State ι ρ
  | .beginExternalListOutput =>
    { s with deferred_begin_statements := s.deferred_begin_statements + 1 }
  | .endIoStatement => { s with deferred_end_statements := s.deferred_end_statements + 1 }
  | _ => s

/-- The block `if (defer_for_reorder)`. -/
def State.defer (s : State ι ρ) (fn : DeviceRt) (idx : Word) (a : List ArgVal) (return_value : ρ)
    (origin : ι) : Option (State ι ρ) :=
  match s.deferred_fns, a with
  | .live fns, .word thread_num :: .word num_threads :: .word team_num :: .word num_teams :: args =>
    let q : Entry ι ρ :=
      { NumArgs := args.length, fnptr := fn, fn_idx := idx, dfnid := s.deferred_fn_count,
        arg_array := args, thread_num, num_threads, team_num, num_teams, return_value, origin }
    some { s with
      deferred_fns := .live (fns ++ [q])
      deferred_fn_count := s.deferred_fn_count + 1
      max_num_threads :=
        if s.max_num_threads < num_threads then num_threads else s.max_num_threads
      max_num_teams := if s.max_num_teams < num_teams then num_teams else s.max_num_teams }
  | _, _ => none

/-- `fortran_rt_service` on the request `req`, whose return value goes to `return_value`. -/
def fortranRtService (results : ℕ → Word) (s : State ι ρ) (return_value : ρ) (origin : ι)
    (req : Request) : Option (State ι ρ × ServiceRc) :=
  if req.a.length = 0 then some (s, .errorInvalidRequest)
  else
    let s := s.allocate
    match DeviceRt.ofIdx req.DeviceRuntime_idx with
    | none =>
      -- the index itself is called as a function pointer
      if callable (req.a.length - 4) then none else some (s, .errorInvalidRequest)
    | some fn =>
      if fn.deferForReorder then
        (copyStrings fn req.a).bind fun a =>
          let s := s.countStatement fn
          (s.defer fn req.DeviceRuntime_idx a return_value origin).bind fun s =>
            if fn = .endIoStatement ∧ s.deferred_end_statements = s.deferred_begin_statements then
              flush results s
            else some (s, .success)
      else if callable (req.a.length - 4) then
        (s.call results fn (req.a.drop 4) return_value origin).map fun s => (s, .success)
      else some (s, .errorInvalidRequest)

end Aomp.Fortran
