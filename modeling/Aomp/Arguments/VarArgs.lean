import Aomp.Arguments.Release

/-!
# The list is the list of the arguments

Whatever the order of the arguments is, `va_arg` takes them out of the list as they were decoded,
and the copies into the overflow area stay inside of it.
-/
namespace Aomp.Arguments

open Foundations

namespace Slot

/-- A `float` or a `double`, an integer of 4 or 8 bytes, a pointer or a string. -/
def IsArgument : Slot → Prop
  | float _ num_bytes | integer _ num_bytes => num_bytes = 4 ∨ num_bytes = 8
  | string _ => True

/-- The word that `va_arg` takes is the argument: a `float` as a `double` of the same value, and
an integer of 4 bytes in the low half. -/
def Arrives (mem : ℕ → Byte) (w : ℕ) : Slot → Prop
  | float dataptr num_bytes =>
    if num_bytes = 4 then
      w = (Float32.ofBits (UInt32.ofNat (readLE mem dataptr 4))).toFloat.toBits.toNat
    else w = readLE mem dataptr 8
  | integer dataptr num_bytes =>
    if num_bytes = 4 then w % 2 ^ 32 = readLE mem dataptr 4 else w = readLE mem dataptr 8
  | string strptr => w = strptr % 2 ^ 64

end Slot

variable {malloc : ℕ → Bool} {mem : ℕ → Byte} {v w : Valist} {slot : Slot} {slots : List Slot}

theorem Slot.IsArgument.supported (h : slot.IsArgument) : slot.Supported := by
  cases slot with
  | float dataptr num_bytes => exact h
  | integer dataptr num_bytes => exact .inr (.inr h)
  | string strptr => trivial

theorem Slot.IsArgument.arrives (h : slot.IsArgument) :
    slot.Arrives mem (slot.value mem % 256 ^ 8) := by
  have hpow : (256 : ℕ) ^ 8 = 2 ^ 64 := by norm_num
  have hfour : (256 : ℕ) ^ 4 = 2 ^ 32 := by norm_num
  have hlt : ∀ a n, readLE mem a n < 256 ^ n := readLE_lt mem
  cases slot with
  | float dataptr num_bytes =>
    rcases h with rfl | rfl
    · apply Nat.mod_eq_of_lt
      rw [hpow]
      exact UInt64.toNat_lt _
    · exact Nat.mod_eq_of_lt (hlt dataptr 8)
  | integer dataptr num_bytes =>
    have hword := hlt dataptr 4
    rcases h with rfl | rfl
    · show readLE mem dataptr 4 % 256 ^ 8 % 2 ^ 32 = readLE mem dataptr 4
      rw [Nat.mod_eq_of_lt (hword.trans (by norm_num)), Nat.mod_eq_of_lt (hfour ▸ hword)]
    · exact Nat.mod_eq_of_lt (hlt dataptr 8)
  | string strptr =>
    show strptr % 256 ^ 8 = strptr % 2 ^ 64
    rw [hpow]

theorem foldlM_words (h : slots.foldlM (fun v slot => pfAddSlot malloc mem slot v) v = .ok w) :
    (slots.map fun slot => (slot.cls, slot.value mem)).foldlM
      (fun v p => hostrpc_pfAdd (fun _ => true) p.1 p.2 (v.start p.1)) v = .ok w := by
  induction slots generalizing v with
  | nil => exact congrArg Except.ok (Except.ok.inj h)
  | cons slot slots ih =>
    rw [List.foldlM_cons] at h
    cases hadd : pfAddSlot malloc mem slot v with
    | error e =>
      rw [hadd] at h
      cases h
    | ok u =>
      rw [hadd] at h
      rw [List.map_cons, List.foldlM_cons, pfAdd_of_ok (pfAddSlot_ok hadd).2]
      exact ih h

/-- What the slots leave in the list arrives in their order. -/
theorem foldlM_arrives (hslots : ∀ slot ∈ slots, slot.IsArgument)
    (h : slots.foldlM (fun v slot => pfAddSlot malloc mem slot v) Valist.empty = .ok w) :
    List.Forall₂ (Slot.Arrives mem) (va_args (slots.map Slot.cls) w.rollBack) slots := by
  have hall : ∀ n, (fun _ : ℕ => true) n = true := fun _ => rfl
  obtain ⟨u, hu, hargs⟩ := va_args_rollBack hall (slots.map fun slot => (slot.cls, slot.value mem))
  obtain rfl := Except.ok.inj (hu.symm.trans (foldlM_words h))
  rw [List.map_map, List.map_map] at hargs
  have hclasses : va_args (slots.map Slot.cls) u.rollBack =
      slots.map fun slot => slot.value mem % 256 ^ 8 := hargs
  rw [hclasses, List.forall₂_map_left_iff, List.forall₂_same]
  exact fun slot hslot => (hslots slot hslot).arrives

/-- The list of any arguments is built where the allocations succeed, `va_arg` takes the arguments
out of it in their order, and no copy leaves its block, whichever allocations succeed. -/
theorem valist_is_argument_list (mem : ℕ → Byte) (n : ℕ) (c : Cursor)
    (hargs : ∀ slot ∈ decoded mem n c, slot.IsArgument) (hall : failure mem n c = none) :
    (∃ v, hostrpc_pfBuildValist (fun _ => true) mem n c = .ok v) ∧
      ∀ malloc,
        (∃ live, BlockHeap.empty.run (Heap.hostrpc_pfBuildValist malloc mem n c).ops = some live) ∧
        ∀ v, hostrpc_pfBuildValist malloc mem n c = .ok v →
          List.Forall₂ (Slot.Arrives mem) (va_args ((decoded mem n c).map Slot.cls) v.rollBack)
            (decoded mem n c) := by
  have hbuild : ∀ malloc, hostrpc_pfBuildValist malloc mem n c =
      if malloc sizeofRegSaveArea then
        (decoded mem n c).foldlM (fun v slot => pfAddSlot malloc mem slot v) Valist.empty
      else .error (.rc .RC_STATUS_ERROR) := by
    intro malloc
    unfold hostrpc_pfBuildValist
    rw [argLoop_eq, hall]
    cases (decoded mem n c).foldlM (fun v slot => pfAddSlot malloc mem slot v) Valist.empty <;> rfl
  refine ⟨?_, fun malloc => ⟨?_, fun v hv => ?_⟩⟩
  · rw [hbuild, if_pos rfl]
    rcases foldlM_filled mem Valist.filled_empty (grows_zero fun _ => true)
      (decoded mem n c) with ⟨-, hadd⟩ | ⟨hnot, -⟩
    · exact hadd
    · exact absurd ⟨fun slot hslot => (hargs slot hslot).supported, fun _ _ _ => rfl⟩ hnot
  · obtain ⟨live, hrun, -⟩ := Heap.meets_pfBuildValist malloc mem n c
    exact ⟨live, hrun⟩
  · rw [hbuild] at hv
    split_ifs at hv
    exact foldlM_arrives hargs hv

def twoArguments (i : ℕ) : Byte :=
  [32, 0, 12, 0, 64, 0, 3, 0, 7, 0, 0, 0, 0, 0, 0, 0, 0, 0, 0, 0, 0, 0, 240, 63].getD i 0

theorem decoded_twoArguments : decoded twoArguments 2 ⟨0, 8, 24, 16⟩ = [.integer 8 4, .float 16 8] ∧
    failure twoArguments 2 ⟨0, 8, 24, 16⟩ = none := ⟨rfl, rfl⟩

theorem valist_is_argument_list_twoArguments :
    (∃ v, hostrpc_pfBuildValist (fun _ => true) twoArguments 2 ⟨0, 8, 24, 16⟩ = .ok v) ∧
      ∀ malloc, (∃ live, BlockHeap.empty.run
        (Heap.hostrpc_pfBuildValist malloc twoArguments 2 ⟨0, 8, 24, 16⟩).ops = some live) ∧
        ∀ v, hostrpc_pfBuildValist malloc twoArguments 2 ⟨0, 8, 24, 16⟩ = .ok v →
          List.Forall₂ (Slot.Arrives twoArguments)
            (va_args ((decoded twoArguments 2 ⟨0, 8, 24, 16⟩).map Slot.cls) v.rollBack)
            (decoded twoArguments 2 ⟨0, 8, 24, 16⟩) :=
  valist_is_argument_list twoArguments 2 ⟨0, 8, 24, 16⟩
    (by rw [decoded_twoArguments.1]; simp [Slot.IsArgument]) decoded_twoArguments.2

end Aomp.Arguments
