import Aomp.Arguments.Services

/-!
# What the walk decodes

The loop over the arguments takes slot after slot out of the buffer, until it has all of them or
one fails. Which they are does not depend on what is done with them.
-/
namespace Aomp.Arguments

open Foundations

/-- The slots in front of the first argument that does not decode. -/
def decoded (mem : ℕ → Byte) : ℕ → Cursor → List Slot
  | 0, _ => []
  | n + 1, c =>
    match nextArg mem c with
    | .error _ => []
    | .ok (slot, c) => slot :: decoded mem n c

/-- How the first argument fails that does not decode. -/
def failure (mem : ℕ → Byte) : ℕ → Cursor → Option Failure
  | 0, _ => none
  | n + 1, c =>
    match nextArg mem c with
    | .error e => some e
    | .ok (_, c) => failure mem n c

variable {mem : ℕ → Byte} {m n : ℕ} {c : Cursor}

theorem argLoop_eq {S : Type*} (add : Slot → S → Except Failure S) (n : ℕ) (c : Cursor) (s : S) :
    argLoop mem add n c s = ((decoded mem n c).foldlM (fun s slot => add slot s) s).bind
      fun t => (failure mem n c).elim (.ok t) .error := by
  induction n generalizing c s with
  | zero => rfl
  | succ n ih =>
    rw [argLoop, decoded, failure]
    cases hnext : nextArg mem c with
    | error e => rfl
    | ok next =>
      obtain ⟨slot, c⟩ := next
      simp only [List.foldlM_cons]
      cases hadd : add slot s with
      | error e => rfl
      | ok t => exact ih c t

theorem length_decoded_le (mem : ℕ → Byte) (n : ℕ) (c : Cursor) : (decoded mem n c).length ≤ n := by
  induction n generalizing c with
  | zero => exact le_rfl
  | succ n ih =>
    rw [decoded]
    cases nextArg mem c with
    | error e => exact Nat.zero_le _
    | ok next => exact Nat.succ_le_succ (ih next.2)

theorem length_decoded_of_none (h : failure mem n c = none) : (decoded mem n c).length = n := by
  induction n generalizing c with
  | zero => rfl
  | succ n ih =>
    rw [failure] at h
    rw [decoded]
    cases hnext : nextArg mem c with
    | error e =>
      rw [hnext] at h
      cases h
    | ok next =>
      rw [hnext] at h
      exact congrArg Nat.succ (ih h)

/-- What fails among the first arguments fails in the whole list, after as many slots. -/
theorem failure_of_le (hle : m ≤ n) {e : Failure} (h : failure mem m c = some e) :
    failure mem n c = some e ∧ (decoded mem n c).length < m := by
  induction m generalizing n c with
  | zero => cases h
  | succ m ih =>
    obtain ⟨n, rfl⟩ : ∃ k, n = k + 1 := ⟨n - 1, by omega⟩
    rw [failure] at h ⊢
    rw [decoded]
    cases hnext : nextArg mem c with
    | error e' =>
      rw [hnext] at h
      exact ⟨h, Nat.succ_pos m⟩
    | ok next =>
      rw [hnext] at h
      obtain ⟨hfails, hlength⟩ := ih (Nat.le_of_succ_le_succ hle) h
      exact ⟨hfails, Nat.succ_lt_succ hlength⟩

theorem le_length_decoded (hle : m ≤ n) (h : failure mem m c = none) :
    m ≤ (decoded mem n c).length := by
  induction m generalizing n c with
  | zero => exact Nat.zero_le _
  | succ m ih =>
    obtain ⟨n, rfl⟩ : ∃ k, n = k + 1 := ⟨n - 1, by omega⟩
    rw [failure] at h
    rw [decoded]
    cases hnext : nextArg mem c with
    | error e =>
      rw [hnext] at h
      cases h
    | ok next =>
      rw [hnext] at h
      exact Nat.succ_le_succ (ih (Nat.le_of_succ_le_succ hle) h)

/-- An argument fails with a code or in a division; nothing is stored yet. -/
theorem nextArg_ne_overrun (mem : ℕ → Byte) (c : Cursor) : nextArg mem c ≠ .error .overrun := by
  have hnumber : ∀ slot num_bytes, c.number slot num_bytes ≠ .error .overrun := by
    intro slot num_bytes
    unfold Cursor.number
    dsimp only
    split_ifs <;> simp
  have htext : c.text mem ≠ .error .overrun := by
    unfold Cursor.text
    split_ifs <;> simp
  unfold nextArg Cursor.switch
  dsimp only
  split
  all_goals first | apply hnumber | skip
  · split_ifs
    · exact htext
    · exact hnumber _ _
  all_goals simp

theorem failure_ne_overrun (mem : ℕ → Byte) (n : ℕ) (c : Cursor) :
    failure mem n c ≠ some .overrun := by
  induction n generalizing c with
  | zero => simp [failure]
  | succ n ih =>
    rw [failure]
    cases hnext : nextArg mem c with
    | error e =>
      intro h
      exact nextArg_ne_overrun mem c (hnext.trans (congrArg Except.error (Option.some.inj h)))
    | ok next => exact ih next.2

namespace Slot

def cls : Slot → RegClass
  | float .. => .fp
  | integer .. | string _ => .gp

/-- The word that is copied: a `float` as a `double`, an integer without its sign. -/
def value (mem : ℕ → Byte) : Slot → ℕ
  | float dataptr num_bytes =>
    if num_bytes = 4 then
      (Float32.ofBits (UInt32.ofNat (readLE mem dataptr 4))).toFloat.toBits.toNat
    else readLE mem dataptr 8
  | integer dataptr num_bytes =>
    if num_bytes = 1 then readLE mem dataptr 1
    else if num_bytes = 8 then readLE mem dataptr 8
    else readLE mem dataptr 4
  | string strptr => strptr

/-- The sizes that the functions have a case for. -/
def Supported : Slot → Prop
  | float _ num_bytes => num_bytes = 4 ∨ num_bytes = 8
  | integer _ num_bytes => num_bytes = 1 ∨ num_bytes = 2 ∨ num_bytes = 4 ∨ num_bytes = 8
  | string _ => True

def rc : Slot → ServiceRc
  | float .. => .RC_ADDFLOAT_ERROR
  | integer .. => .RC_ADDINT_ERROR
  | string _ => .RC_ADDSTRING_ERROR

end Slot

variable {malloc : ℕ → Bool} {v w : Valist} {slot : Slot}

theorem pfAddSlot_supported (hslot : slot.Supported) (v : Valist) : pfAddSlot malloc mem slot v =
    (hostrpc_pfAdd malloc slot.cls (slot.value mem) (v.start slot.cls)).mapError
      fun _ => .rc slot.rc := by
  cases slot with
  | float dataptr num_bytes =>
    rcases hslot with rfl | rfl <;> rfl
  | integer dataptr num_bytes =>
    rcases hslot with rfl | rfl | rfl | rfl <;> rfl
  | string strptr => rfl

theorem pfAddSlot_unsupported (hslot : ¬ slot.Supported) (v : Valist) :
    pfAddSlot malloc mem slot v = .error (.rc slot.rc) := by
  cases slot with
  | float dataptr num_bytes =>
    simp only [Slot.Supported, not_or] at hslot
    simp [pfAddSlot, hostrpc_pfAddFloat, hslot, Except.mapError, Slot.rc]
  | integer dataptr num_bytes =>
    simp only [Slot.Supported, not_or] at hslot
    simp [pfAddSlot, hostrpc_pfAddInteger, hslot, Except.mapError, Slot.rc]
  | string strptr => exact absurd trivial hslot

theorem pfAddSlot_ok (h : pfAddSlot malloc mem slot v = .ok w) : slot.Supported ∧
    hostrpc_pfAdd malloc slot.cls (slot.value mem) (v.start slot.cls) = .ok w := by
  by_cases hslot : slot.Supported
  · rw [pfAddSlot_supported hslot] at h
    refine ⟨hslot, ?_⟩
    cases hadd : hostrpc_pfAdd malloc slot.cls (slot.value mem) (v.start slot.cls) with
    | error e =>
      rw [hadd] at h
      cases h
    | ok u =>
      rw [hadd] at h
      exact congrArg Except.ok (Except.ok.inj h)
  · rw [pfAddSlot_unsupported hslot] at h
    cases h

theorem pfAddSlot_sound (hv : v.Sound) (h : pfAddSlot malloc mem slot v = .ok w) : w.Sound := by
  obtain ⟨-, hadd⟩ := pfAddSlot_ok h
  have hall : ∀ n, (fun _ : ℕ => true) n = true := fun _ => rfl
  obtain ⟨u, hu, hsound, -⟩ := pfAdd_spec hall slot.cls (slot.value mem) hv
  obtain rfl := Except.ok.inj (hu.symm.trans (pfAdd_of_ok hadd))
  exact hsound

end Aomp.Arguments
