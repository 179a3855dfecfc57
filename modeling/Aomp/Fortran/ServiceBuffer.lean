import Aomp.Arguments.Calls
import Aomp.Fortran.DeferredCalls

/-!
# The Fortran service on a buffer

`fortran_rt_service` takes a request out of the buffer, where a string is a pointer to its bytes,
and serves it.
-/
namespace Aomp.Fortran

open Arguments Foundations Hostexec

/-- The entry of the array is the word, or the string that the word points to. -/
def ArgVal.Represents (mem : ℕ → Byte) : ArgVal → ℕ → Prop
  | .word w, n => w = BitVec.ofNat 64 n
  | .str s, n => CString (fun i => mem (n + i)) (s.map UInt8.toBitVec)

variable {ι ρ : Type}

/-- What `fortran_rt_service` does with a buffer: it unpacks a request and serves it. -/
def ServiceResult (results : ℕ → Word) (s : State ι ρ) (return_value : ρ) (origin : ι)
    (mem : ℕ → Byte) (buf bufsz : ℕ) (out : Option (State ι ρ × ServiceRc)) : Prop :=
  if bufsz = 0 then out = some (s, .success)
  else
    match unpackFnptr mem buf with
    | .error (.rc _) => out = some (s, .errorInvalidRequest)
    | .error _ => out = none
    | .ok r => ∃ a, List.Forall₂ (ArgVal.Represents mem) a r.a ∧
        out = fortranRtService results s return_value origin ⟨BitVec.ofNat 64 r.fnptr, a⟩

section

variable {results : ℕ → Word} {s : State ι ρ} {rv : ρ} {o : ι} {mem : ℕ → Byte} {buf bufsz : ℕ}
  {out : Option (State ι ρ × ServiceRc)}

theorem serviceResult_of_error (hsz : bufsz ≠ 0) {rc : Arguments.ServiceRc}
    (hunpack : unpackFnptr mem buf = .error (.rc rc)) :
    ServiceResult results s rv o mem buf bufsz out ↔ out = some (s, .errorInvalidRequest) := by
  simp only [ServiceResult, hsz, hunpack, if_false]

theorem serviceResult_of_ok (hsz : bufsz ≠ 0) {r : FnRequest} (hunpack : unpackFnptr mem buf = .ok r) :
    ServiceResult results s rv o mem buf bufsz out ↔
      ∃ a, List.Forall₂ (ArgVal.Represents mem) a r.a ∧
        out = fortranRtService results s rv o ⟨BitVec.ofNat 64 r.fnptr, a⟩ := by
  simp only [ServiceResult, hsz, hunpack, if_false]

/-- Every word can be taken for itself. -/
theorem exists_represents (mem : ℕ → Byte) (ws : List ℕ) :
    ∃ a, List.Forall₂ (ArgVal.Represents mem) a ws := by
  induction ws with
  | nil => exact ⟨[], List.Forall₂.nil⟩
  | cons w ws ih =>
    obtain ⟨a, ha⟩ := ih
    exact ⟨.word (BitVec.ofNat 64 w) :: a, List.Forall₂.cons rfl ha⟩

end

end Aomp.Fortran
