import Aomp.Fortran.NumericOutput
import Aomp.Fortran.ServiceBuffer

/-!
# Calls that are not deferred

`_FortranAAbort` and `_FortranAStopStatementText` send their own arguments only. The service
takes the first four arguments of every request for the identity of the thread, so nothing of
these requests is left for the call.
-/
namespace Aomp.Fortran

open Arguments Foundations Hostexec

/-- A call of one of the two stubs, with the bytes that `errmsg` points to. -/
inductive DirectCall
  | abort
  | stopStatementText (errmsg : ℕ → Byte) (a1 : BitVec 64) (a2 a3 : Bool)

namespace DirectCall

def fn : DirectCall → DeviceRt
  | abort => .abort
  | stopStatementText .. => .stopStatementText

/-- The message after `errmsg[a1 - 1] = 0`. -/
def terminated (errmsg : ℕ → Byte) (a1 : BitVec 64) (i : ℕ) : Byte :=
  if (i : ℤ) = a1.toInt - 1 then 0 else errmsg i

/-- What the stub passes after the function index. A `bool` is promoted to an `int`. -/
def args : DirectCall → List Arg
  | abort => []
  | stopStatementText errmsg a1 a2 a3 =>
    [.string (.declRef false none (terminated errmsg a1)), .int64 a1, .int32 (if a2 then 1 else 0),
      .int32 (if a3 then 1 else 0)]

/-- The call of `hostexec_fortrt`. -/
def stubCall (c : DirectCall) : Call := .hostexec c.fn.idx c.args

/-- The memory that the service sees holds the buffer of the call at an address. -/
structure Sent (c : DirectCall) (mem : ℕ → Byte) (buf bufsz : ℕ) : Prop where
  aligned : 8 ∣ buf
  space : buf + bufsz < 2 ^ 64
  stored : ∃ e mem₀, emitHostexecAllocAndExecFns c.stubCall.passed = some e ∧ e.BufferLen = bufsz ∧
    ∀ i < bufsz, mem (buf + i) = Store.writeAll buf mem₀ e.stores (buf + i)

end DirectCall

variable {ι ρ : Type}

namespace DirectCall

def Passes : DirectCall → List ArgVal → Prop
  | abort, a => a = []
  | stopStatementText errmsg a1 a2 a3, a =>
    ∃ text : List UInt8, CString (terminated errmsg a1) (text.map UInt8.toBitVec) ∧
      a = [.str text, .word a1, .word (if a2 then 1 else 0), .word (if a3 then 1 else 0)]

/-- The service has called the wrapper of the stub with the arguments of the stub, once. -/
def Served (c : DirectCall) (s : State ι ρ) (out : Option (State ι ρ × ServiceRc)) : Prop :=
  ∃ s' called, out = some (s', .success) ∧ s'.called = s.called ++ [called] ∧ called.fnptr = c.fn ∧
    c.Passes called.args

/-- The request is malformed for the service, and nothing is called. -/
def Rejected (s : State ι ρ) (out : Option (State ι ρ × ServiceRc)) : Prop :=
  ∃ s', out = some (s', .errorInvalidRequest) ∧ s'.called = s.called

/-- The call reaches its host function, whatever was served before. -/
def ReachesHost (c : DirectCall) : Prop :=
  ∀ (ι ρ : Type) (results : ℕ → Word) (s : State ι ρ) (rv : ρ) (o : ι) (mem : ℕ → Byte)
    (buf bufsz : ℕ) (out : Option (State ι ρ × ServiceRc)), c.Sent mem buf bufsz →
      ServiceResult results s rv o mem buf bufsz out → c.Served s out

theorem Rejected.not_served {c : DirectCall} {s : State ι ρ} {out : Option (State ι ρ × ServiceRc)}
    (h : Rejected s out) : ¬ c.Served s out := by
  obtain ⟨s', rfl, -⟩ := h
  rintro ⟨t, called, hout, -⟩
  cases hout

end DirectCall

section

variable {mem mem₀ : ℕ → Byte} {buf bufsz : ℕ}

theorem unpackFnptr_noArgument {entry : Arguments.Entry} (h : Received mem buf [entry]) :
    unpackFnptr mem buf = .error (.rc .RC_ERROR_INVALID_REQUEST) := by
  have hheader := h.header_eq
  unfold unpackFnptr
  rw [hheader]
  exact if_pos (by simp)

theorem fortranRtService_identity (results : ℕ → Word) (s : State ι ρ) (rv : ρ) (o : ι) {fn : DeviceRt}
    (hdirect : fn.deferForReorder = false) {a : List ArgVal} (hcount : a.length = 4) :
    fortranRtService results s rv o ⟨fn.idx, a⟩ = some (s.allocate, .errorInvalidRequest) := by
  unfold fortranRtService
  simp [hcount, DeviceRt.ofIdx_idx, hdirect, callable]

theorem State.allocate_called (s : State ι ρ) : s.allocate.called = s.called := by
  unfold State.allocate
  split <;> rfl

theorem stop_entries (errmsg : ℕ → Byte) (a1 : BitVec 64) (a2 a3 : Bool) : ∃ entries,
    (DirectCall.stopStatementText errmsg a1 a2 a3).args.mapM Arg.entry = some entries ∧
      (∀ f ∈ entries, f.Lowered) ∧ entries.length = 4 ∧
        Fits (⟨.pointer DeviceRt.stopStatementText.idx, []⟩ :: entries) := by
  set instr := DirectCall.terminated errmsg a1
  have hlen := strlen_max_le instr 1024
  set text := (List.range (strlen_max instr 1024)).map instr with htext
  have hlength : text.length = strlen_max instr 1024 := by simp [htext]
  refine ⟨[⟨.string (.declRef false none instr), text⟩, ⟨.int64 a1, []⟩,
    ⟨.int32 (if a2 then 1 else 0), []⟩, ⟨.int32 (if a3 then 1 else 0), []⟩], rfl, ?_, rfl, ?_⟩
  · intro f hf
    simp only [List.mem_cons, List.not_mem_nil, or_false] at hf
    rcases hf with rfl | rfl | rfl | rfl <;> rfl
  · have hdata := dataEnd_le (4 * (5 + 2)) (⟨.pointer DeviceRt.stopStatementText.idx, []⟩ ::
      [⟨.string (.declRef false none instr), text⟩, ⟨.int64 a1, []⟩,
        ⟨.int32 (if a2 then 1 else 0), []⟩, ⟨.int32 (if a3 then 1 else 0), []⟩])
    constructor
    · exact hdata.trans_lt (by simp)
    · unfold textEnd
      simp only [List.map_cons, List.map_nil, List.sum_cons, List.sum_nil, List.length_nil, hlength]
      exact (Nat.add_le_add hdata (show _ ≤ 1024 by omega)).trans_lt (by simp)

end

namespace DirectCall

variable {mem : ℕ → Byte} {buf bufsz : ℕ}

theorem Sent.received {c : DirectCall} (h : c.Sent mem buf bufsz) : bufsz ≠ 0 ∧ ∃ entries,
    Received mem buf (⟨.pointer c.fn.idx, []⟩ :: entries) ∧ entries.length = c.args.length := by
  obtain ⟨hbuf, hspace, e, mem₀, hemit, hlen, hmem⟩ := h
  obtain ⟨entries, hargs, hlowered, hcount, hfits⟩ : ∃ entries, c.args.mapM Arg.entry = some entries ∧
      (∀ f ∈ entries, f.Lowered) ∧ entries.length = c.args.length ∧
        Fits (⟨.pointer c.fn.idx, []⟩ :: entries) := by
    cases c with
    | abort => exact ⟨[], rfl, by simp, rfl, ⟨by decide, by decide⟩⟩
    | stopStatementText errmsg a1 a2 a3 => exact stop_entries errmsg a1 a2 a3
  unfold emitHostexecAllocAndExecFns stubCall Call.passed at hemit
  rw [List.mapM_cons, hargs] at hemit
  obtain rfl : emitEntries (⟨.pointer c.fn.idx, []⟩ :: entries) = e := Option.some.inj hemit
  rw [emitEntries_eq hfits.buffer] at hlen hmem
  obtain rfl : textEnd _ _ = bufsz := hlen
  have hall : ∀ f ∈ (⟨.pointer c.fn.idx, []⟩ :: entries : List Arguments.Entry), f.Lowered :=
    List.forall_mem_cons.mpr ⟨rfl, hlowered⟩
  refine ⟨?_, entries, received_of_stores hbuf hfits hspace hall hmem, hcount⟩
  have hwords :=
    le_dataEnd (4 * ((⟨.pointer c.fn.idx, []⟩ :: entries : List Arguments.Entry).length + 2))
    (⟨.pointer c.fn.idx, []⟩ :: entries)
  have htext := dataLen_le_textEnd (⟨.pointer c.fn.idx, []⟩ :: entries)
  unfold dataLen at htext ⊢
  omega

/-- No call of the two stubs reaches its host function: the service rejects every one. -/
theorem direct_calls_rejected (c : DirectCall) (h : c.Sent mem buf bufsz) (results : ℕ → Word)
    (s : State ι ρ) (rv : ρ) (o : ι) :
    (∃ out, ServiceResult results s rv o mem buf bufsz out) ∧
      ∀ out, ServiceResult results s rv o mem buf bufsz out → Rejected s out ∧ ¬ c.Served s out := by
  obtain ⟨hsz, entries, hreceived, hcount⟩ := h.received
  suffices hrejected : (∃ out, ServiceResult results s rv o mem buf bufsz out) ∧
      ∀ out, ServiceResult results s rv o mem buf bufsz out → Rejected s out from
    ⟨hrejected.1, fun out hout => ⟨hrejected.2 out hout, (hrejected.2 out hout).not_served⟩⟩
  cases c with
  | abort =>
    obtain rfl := List.length_eq_zero_iff.mp hcount
    have hunpack := unpackFnptr_noArgument hreceived
    refine ⟨⟨_, (serviceResult_of_error hsz hunpack).mpr rfl⟩, fun out hout => ?_⟩
    exact ⟨s, (serviceResult_of_error hsz hunpack).mp hout, rfl⟩
  | stopStatementText errmsg a1 a2 a3 =>
    have hfour : entries.length = 4 := hcount
    have hpos : entries ≠ [] := by
      rintro rfl
      cases hfour
    have hunpack := unpackFnptr_received hreceived hpos (hfour.trans_le (by decide))
    have hlength : ∀ len, ((words buf len entries).map Prod.snd).length = 4 := by
      intro len
      rw [List.length_map, length_words, hfour]
    constructor
    · obtain ⟨a, ha⟩ := exists_represents mem ((words buf _ entries).map Prod.snd)
      exact ⟨_, (serviceResult_of_ok hsz hunpack).mpr ⟨a, ha, rfl⟩⟩
    · intro out hout
      obtain ⟨a, ha, rfl⟩ := (serviceResult_of_ok hsz hunpack).mp hout
      refine ⟨s.allocate, ?_, s.allocate_called⟩
      rw [BitVec.ofNat_toNat, BitVec.setWidth_eq]
      exact fortranRtService_identity results s rv o rfl (ha.length_eq.trans (hlength _))

theorem abort_sent : abort.Sent abort.stubCall.memory 0 24 :=
  ⟨dvd_zero 8, by norm_num, _, fun _ => 0, rfl, by decide, fun _ _ => rfl⟩

theorem direct_calls_rejected_abort : (∃ out, ServiceResult (fun _ => 0) (State.init : State ℕ ℕ) 0 0
    abort.stubCall.memory 0 24 out) ∧ ∀ out, ServiceResult (fun _ => 0) (State.init : State ℕ ℕ) 0 0
      abort.stubCall.memory 0 24 out → Rejected State.init out ∧ ¬ abort.Served State.init out :=
  direct_calls_rejected abort abort_sent (fun _ => 0) State.init 0 0

/-- `_FortranAAbort` does not reach the host: the service finds no argument. -/
theorem abort_not_reachesHost : ¬ abort.ReachesHost := by
  intro h
  have hunpack : unpackFnptr abort.stubCall.memory 0 = .error (.rc .RC_ERROR_INVALID_REQUEST) := by
    have herror : (match unpackFnptr abort.stubCall.memory 0 with
        | .error e => decide (e = .rc .RC_ERROR_INVALID_REQUEST)
        | .ok _ => false) = true := by decide +kernel
    cases hresult : unpackFnptr abort.stubCall.memory 0 with
    | ok r => simp [hresult] at herror
    | error e => simpa [hresult] using herror
  have hserved := h ℕ ℕ (fun _ => 0) State.init 0 0 abort.stubCall.memory 0 24 _ abort_sent
    ((serviceResult_of_error (by decide) hunpack).mpr rfl)
  obtain ⟨t, called, hout, -⟩ := hserved
  cases hout

end DirectCall

end Aomp.Fortran
