import Aomp.Arguments.ArrayBounds
import Aomp.Fortran.ServiceBuffer

/-!
# The array of the arguments in both services

The Fortran service shares the array and the loop with `hostexec_service`, and calls with four
arguments less.
-/
namespace Aomp.Fortran

open Arguments Foundations Hostexec

variable {mem : ℕ → Byte} {buf bufsz : ℕ}

/-- `fortran_rt_service` stores inside of the array, and refuses more arguments than a call has
behind the identity of the thread. -/
def FortranSafe (mem : ℕ → Byte) (buf bufsz : ℕ) : Prop :=
  bufsz ≠ 0 → unpackFnptr mem buf ≠ .error .overrun ∧
    (Arguments.MAXVARGS < fnptrArgs mem buf - 4 →
      ∀ (ι ρ : Type) (results : ℕ → Word) (s : State ι ρ) (rv : ρ) (o : ι)
        (out : Option (State ι ρ × ServiceRc)),
        ServiceResult results s rv o mem buf bufsz out → out = some (s, .errorInvalidRequest))

theorem refused_iff (hsz : bufsz ≠ 0) (hnone : ∀ r, unpackFnptr mem buf ≠ .ok r) :
    (∀ (ι ρ : Type) (results : ℕ → Word) (s : State ι ρ) (rv : ρ) (o : ι)
      (out : Option (State ι ρ × ServiceRc)),
      ServiceResult results s rv o mem buf bufsz out → out = some (s, .errorInvalidRequest)) ↔
    ∃ rc, unpackFnptr mem buf = .error (.rc rc) := by
  constructor
  · intro h
    have hrefused := h ℕ ℕ (fun _ => 0) State.init 0 0 none
    cases hunpack : unpackFnptr mem buf with
    | ok r => exact absurd hunpack (hnone r)
    | error e =>
      cases e with
      | rc rc => exact ⟨rc, rfl⟩
      | overrun | divide => simp [ServiceResult, hsz, hunpack] at hrefused
  · rintro ⟨rc, hunpack⟩ ι ρ results s rv o out hout
    exact (serviceResult_of_error hsz hunpack).mp hout

theorem fortranSafe_iff : FortranSafe mem buf bufsz ↔ bufsz = 0 ∨
    ArgsFit mem (Arguments.MAXVARGS + 4) (fnptrArgs mem buf).toNat (fnptrRest mem buf) := by
  have hcount : (Arguments.MAXVARGS : ℤ) < fnptrArgs mem buf - 4 ↔
      Arguments.MAXVARGS + 4 < (fnptrArgs mem buf).toNat := by omega
  have hunpack : unpackFnptr mem buf =
      if fnptrArgs mem buf ≤ 0 then .error (.rc .RC_ERROR_INVALID_REQUEST)
      else ((hostrpc_build_vargs_array mem (fnptrArgs mem buf).toNat (fnptrRest mem buf)).mapError
        Failure.invalid).map fun a =>
          ⟨readLE mem ((fnptrRest mem buf).dataptr - 8) 8, (fnptrArgs mem buf).toNat, a⟩ := rfl
  unfold FortranSafe
  by_cases hsz : bufsz = 0
  · simp [hsz]
  · simp only [hsz, false_or, ne_eq, not_false_eq_true, true_imp_iff]
    by_cases hnone : fnptrArgs mem buf ≤ 0
    · rw [hunpack, if_pos hnone, hcount]
      refine iff_of_true ⟨by simp, fun hmore => by omega⟩ (.inl (by omega))
    · rw [← argsSafe_iff (Nat.le_add_right _ 4), ← ArgsSafe.invalid_iff]
      rw [if_neg hnone] at hunpack
      rw [← ArgsSafe.map_iff, ← hunpack, hcount]
      refine and_congr_right fun _ => imp_congr_right fun hmore => refused_iff hsz fun r hr => ?_
      rw [hunpack] at hr
      cases hbuild : hostrpc_build_vargs_array mem (fnptrArgs mem buf).toNat (fnptrRest mem buf) with
      | ok a => exact build_vargs_array_ne_ok (by omega) a hbuild
      | error e =>
        rw [hbuild] at hr
        cases hr

/-- Both services keep inside of the array and refuse what they cannot call if and only if the
array has room for the arguments that decode. -/
theorem argument_array_iff (mem : ℕ → Byte) (buf bufsz : ℕ) :
    (HostexecSafe mem buf bufsz ↔ bufsz = 0 ∨
      ArgsFit mem Arguments.MAXVARGS (fnptrArgs mem buf).toNat (fnptrRest mem buf)) ∧
    (FortranSafe mem buf bufsz ↔ bufsz = 0 ∨
      ArgsFit mem (Arguments.MAXVARGS + 4) (fnptrArgs mem buf).toNat (fnptrRest mem buf)) :=
  ⟨hostexecSafe_iff, fortranSafe_iff⟩

/-- A function pointer with 33 arguments. -/
theorem thirtyThree_overrun : ¬ HostexecSafe Call.thirtyThreeArguments.memory 0 284 ∧
    ¬ FortranSafe Call.thirtyThreeArguments.memory 0 284 := by
  have hover : (match unpackFnptr Call.thirtyThreeArguments.memory 0 with
      | .error e => decide (e = .overrun)
      | .ok _ => false) = true := by decide +kernel
  have hover' : (match hostexec_service Call.thirtyThreeArguments.memory 0 284 with
      | .error e => decide (e = .overrun)
      | .ok _ => false) = true := by decide +kernel
  constructor
  · rintro ⟨hne, -⟩
    cases hresult : hostexec_service Call.thirtyThreeArguments.memory 0 284 with
    | ok r => simp [hresult] at hover'
    | error e =>
      obtain rfl : e = .overrun := by simpa [hresult] using hover'
      exact hne hresult
  · intro h
    obtain ⟨hne, -⟩ := h (by decide)
    cases hresult : unpackFnptr Call.thirtyThreeArguments.memory 0 with
    | ok r => simp [hresult] at hover
    | error e =>
      obtain rfl : e = .overrun := by simpa [hresult] using hover
      exact hne hresult

end Aomp.Fortran
