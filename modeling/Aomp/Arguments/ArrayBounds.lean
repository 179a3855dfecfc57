import Aomp.Arguments.Walk

/-!
# The array of the arguments

`hostrpc_build_vargs_array` stores the arguments in an array of `MAXVARGS` entries that its
callers have on their stack, and the number of the arguments is compared with this bound when the
function is called, behind the loop.
-/
namespace Aomp.Arguments

open Foundations

def Slot.vargs (mem : ℕ → Byte) : Slot → ℕ
  | .float dataptr num_bytes | .integer dataptr num_bytes =>
    if num_bytes = 4 then readLE mem dataptr 4 else readLE mem dataptr 8
  | .string strptr => strptr

/-- The cursor behind the function pointer. -/
def fnptrRest (mem : ℕ → Byte) (buf : ℕ) : Cursor :=
  let c := (header mem buf).cursor
  let dataptr := if c.dataptr % 8 = 0 then c.dataptr else c.dataptr + 4
  let data_not_used := if c.dataptr % 8 = 0 then c.data_not_used
    else sizeT (c.data_not_used - 4)
  ⟨c.keyptr + 4, dataptr + 8, c.strptr, sizeT (data_not_used - 4)⟩

def fnptrArgs (mem : ℕ → Byte) (buf : ℕ) : ℤ := (header mem buf).NumArgs - 1

variable {mem : ℕ → Byte} {buf bufsz n : ℕ} {c : Cursor}

theorem addVarg_storeArg (slot : Slot) (a : List ℕ) :
    addVarg mem slot a = storeArg a (slot.vargs mem) := by
  cases slot <;> rfl

theorem foldlM_addVarg (slots : List Slot) (a : List ℕ) (ha : a.length ≤ MAXVARGS) :
    slots.foldlM (fun a slot => addVarg mem slot a) a =
      if a.length + slots.length ≤ MAXVARGS then .ok (a ++ slots.map (Slot.vargs mem))
      else .error .overrun := by
  induction slots generalizing a with
  | nil =>
    rw [List.length_nil, add_zero, if_pos ha, List.map_nil, List.append_nil]
    rfl
  | cons slot slots ih =>
    rw [List.foldlM_cons, addVarg_storeArg, storeArg]
    by_cases hroom : a.length < MAXVARGS
    · have hlength : (a ++ [slot.vargs mem]).length = a.length + 1 := by simp
      have happend : a ++ [slot.vargs mem] ++ slots.map (Slot.vargs mem) =
          a ++ (slot :: slots).map (Slot.vargs mem) := by simp
      have hrest := ih (a ++ [slot.vargs mem]) (by omega)
      rw [hlength, happend, Nat.add_assoc, Nat.add_comm 1] at hrest
      rw [if_pos hroom]
      exact hrest
    · rw [if_neg hroom, if_neg (by rw [List.length_cons]; omega)]
      rfl

/-- The array is overrun by the argument behind the last entry, if the walk comes to it. -/
theorem build_vargs_array_eq (mem : ℕ → Byte) (n : ℕ) (c : Cursor) :
    hostrpc_build_vargs_array mem n c = if MAXVARGS < (decoded mem n c).length then .error .overrun
      else (failure mem n c).elim (.ok ((decoded mem n c).map (Slot.vargs mem))) .error := by
  unfold hostrpc_build_vargs_array
  rw [argLoop_eq, foldlM_addVarg _ _ (Nat.zero_le _), List.length_nil, zero_add]
  by_cases hover : MAXVARGS < (decoded mem n c).length
  · rw [if_pos hover, if_neg (by omega)]
    rfl
  · rw [if_neg hover, if_pos (by omega)]
    rfl

/-- At most as many arguments as the array has entries, or one of these or of the next fails; with
more than `limit` arguments it fails with a code. -/
def ArgsFit (mem : ℕ → Byte) (limit n : ℕ) (c : Cursor) : Prop :=
  n ≤ MAXVARGS ∨ ∃ e, failure mem (MAXVARGS + 1) c = some e ∧ (limit < n → ∃ rc, e = .rc rc)

/-- The array is not overrun, and more than `limit` arguments are refused. -/
def ArgsSafe (limit n : ℕ) {α : Type*} (out : Except Failure α) : Prop :=
  out ≠ .error .overrun ∧ (limit < n → ∃ rc, out = .error (.rc rc))

theorem argsSafe_iff {limit : ℕ} (hlimit : MAXVARGS ≤ limit) :
    ArgsSafe limit n (hostrpc_build_vargs_array mem n c) ↔ ArgsFit mem limit n c := by
  rw [build_vargs_array_eq]
  unfold ArgsSafe ArgsFit
  by_cases hcount : n ≤ MAXVARGS
  · have hlength := (length_decoded_le mem n c).trans hcount
    refine iff_of_true ⟨?_, fun hmore => by omega⟩ (.inl hcount)
    rw [if_neg (by omega)]
    cases hfails : failure mem n c with
    | none => simp
    | some e =>
      rintro h
      exact failure_ne_overrun mem n c (hfails.trans (congrArg some (Except.error.inj h)))
  · have hmore : MAXVARGS + 1 ≤ n := by omega
    cases hfails : failure mem (MAXVARGS + 1) c with
    | none =>
      have hlength : MAXVARGS < (decoded mem n c).length := le_length_decoded hmore hfails
      rw [if_pos hlength]
      simp [hcount]
    | some e =>
      obtain ⟨hall, hlength⟩ := failure_of_le hmore hfails
      have hne : e ≠ .overrun := by
        rintro rfl
        exact failure_ne_overrun mem _ c hfails
      rw [if_neg (by omega), hall]
      simp [hcount, hne]

theorem ArgsSafe.invalid_iff {limit : ℕ} {α : Type*} {out : Except Failure α} :
    ArgsSafe limit n (out.mapError Failure.invalid) ↔ ArgsSafe limit n out := by
  unfold ArgsSafe
  cases out with
  | ok a => simp [Except.mapError]
  | error e => cases e <;> simp [Except.mapError, Failure.invalid]

theorem ArgsSafe.map_iff {limit : ℕ} {α β : Type*} {out : Except Failure α} (f : α → β) :
    ArgsSafe limit n (out.map f) ↔ ArgsSafe limit n out := by
  unfold ArgsSafe
  cases out <;> simp [Except.map]

theorem build_vargs_array_ne_ok (hcount : MAXVARGS < n) (a : List ℕ) :
    hostrpc_build_vargs_array mem n c ≠ .ok a := by
  rw [build_vargs_array_eq]
  split_ifs with hover
  · simp
  · cases hfails : failure mem n c with
    | none =>
      have hlength := length_decoded_of_none hfails
      omega
    | some e => simp

/-- The number is compared with the bound behind the loop, where it is no longer needed. -/
theorem ArgsSafe.call_iff {fnptr : ℕ} :
    ArgsSafe MAXVARGS n ((hostrpc_build_vargs_array mem n c).bind (hostrpc_call_fnptr n fnptr)) ↔
      ArgsSafe MAXVARGS n (hostrpc_build_vargs_array mem n c) := by
  cases hbuild : hostrpc_build_vargs_array mem n c with
  | error e =>
    unfold ArgsSafe
    simp [Except.bind]
  | ok a =>
    have hcount : ¬ MAXVARGS < n := fun hmore => build_vargs_array_ne_ok hmore a hbuild
    refine iff_of_true ⟨?_, fun hmore => absurd hmore hcount⟩
      ⟨by simp, fun hmore => absurd hmore hcount⟩
    show hostrpc_call_fnptr n fnptr a ≠ _
    unfold hostrpc_call_fnptr
    split_ifs <;> simp

/-- `hostexec_service` stores inside of the array, and refuses more arguments than a call has. -/
def HostexecSafe (mem : ℕ → Byte) (buf bufsz : ℕ) : Prop :=
  hostexec_service mem buf bufsz ≠ .error .overrun ∧
    (bufsz ≠ 0 → MAXVARGS < fnptrArgs mem buf →
      ∃ rc, hostexec_service mem buf bufsz = .error (.rc rc))

theorem hostexec_service_build (mem : ℕ → Byte) (buf bufsz : ℕ) :
    hostexec_service mem buf bufsz = if bufsz = 0 then .ok none
      else if fnptrArgs mem buf ≤ 0 then .error (.rc .RC_ERROR_INVALID_REQUEST)
      else (((hostrpc_build_vargs_array mem (fnptrArgs mem buf).toNat (fnptrRest mem buf)).bind
        (hostrpc_call_fnptr (fnptrArgs mem buf).toNat (readLE mem ((fnptrRest mem buf).dataptr - 8) 8))
          ).mapError Failure.invalid).map some := rfl

theorem fnptrArgs_of_call {call : FnCall} (h : hostexec_service mem buf bufsz = .ok (some call)) :
    0 < fnptrArgs mem buf ∧ fnptrArgs mem buf ≤ MAXVARGS := by
  rw [hostexec_service_build] at h
  split_ifs at h with hsz hnone
  · cases h
  · refine ⟨not_le.mp hnone, ?_⟩
    by_contra hmore
    have hne : ∀ a, hostrpc_build_vargs_array mem (fnptrArgs mem buf).toNat (fnptrRest mem buf) ≠ .ok a :=
      build_vargs_array_ne_ok (by omega)
    cases hbuild : hostrpc_build_vargs_array mem (fnptrArgs mem buf).toNat (fnptrRest mem buf) with
    | ok a => exact hne a hbuild
    | error e =>
      rw [hbuild] at h
      cases h

theorem hostexecSafe_iff : HostexecSafe mem buf bufsz ↔
    bufsz = 0 ∨ ArgsFit mem MAXVARGS (fnptrArgs mem buf).toNat (fnptrRest mem buf) := by
  have hservice := hostexec_service_build mem buf bufsz
  have hcount : (MAXVARGS : ℤ) < fnptrArgs mem buf ↔ MAXVARGS < (fnptrArgs mem buf).toNat := by omega
  unfold HostexecSafe
  by_cases hsz : bufsz = 0
  · rw [hservice, if_pos hsz]
    simp [hsz]
  · by_cases hnone : fnptrArgs mem buf ≤ 0
    · rw [hservice, if_neg hsz, if_pos hnone]
      refine iff_of_true ⟨by simp, fun _ _ => ⟨_, rfl⟩⟩ (.inr (.inl ?_))
      omega
    · rw [hservice, if_neg hsz, if_neg hnone, hcount, ← argsSafe_iff le_rfl, ← ArgsSafe.call_iff,
        ← ArgsSafe.invalid_iff, ← ArgsSafe.map_iff some]
      simp only [hsz, false_or, ne_eq, not_false_eq_true, true_imp_iff]
      rfl

end Aomp.Arguments
