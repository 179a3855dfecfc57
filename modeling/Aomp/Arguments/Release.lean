import Aomp.Arguments.PrintHeap

/-!
# What a failed `printf` leaves behind

The areas of the list are freed by the services when the list is built, and nowhere else. So they
are released if and only if every argument is added, which depends on its key, its size and on the
allocations that the arguments beyond the registers need.
-/
namespace Aomp.Arguments

open Foundations

def grown : ℕ → ℕ
  | 0 => 0
  | s + 1 =>
    if 8 * (s + 1) < grown s then grown s else if grown s = 0 then FPREGSZ * 8 * 2 else grown s * 2

def Grows (malloc : ℕ → Bool) (s : ℕ) : Prop := ∀ k, 0 < k → k ≤ s → malloc (grown k)

theorem le_grown (s : ℕ) : 8 * s ≤ grown s ∧ (grown s = 0 ↔ s = 0) := by
  induction s with
  | zero => exact ⟨le_rfl, by simp [grown]⟩
  | succ s ih =>
    obtain ⟨hle, hzero⟩ := ih
    rw [grown]
    unfold FPREGSZ
    by_cases hfits : 8 * (s + 1) < grown s
    · rw [if_pos hfits]
      omega
    · rw [if_neg hfits]
      by_cases hnone : grown s = 0
      · rw [if_pos hnone]
        omega
      · rw [if_neg hnone]
        omega

theorem grows_zero (malloc : ℕ → Bool) : Grows malloc 0 := by
  intro k hpos hle
  omega

theorem grows_succ {malloc : ℕ → Bool} {s : ℕ} (hs : Grows malloc s) :
    Grows malloc (s + 1) ↔ malloc (grown (s + 1)) := by
  constructor
  · exact fun h => h (s + 1) (Nat.succ_pos s) le_rfl
  · intro hnext k hpos hle
    rcases hle.lt_or_eq with hlt | rfl
    · exact hs k hpos (Nat.le_of_lt_succ hlt)
    · exact hnext

/-- The numbers of the arguments in the two classes. -/
structure Counts where
  gp : ℕ
  fp : ℕ

namespace Counts

def next (n : Counts) : RegClass → Counts
  | .gp => { n with gp := n.gp + 1 }
  | .fp => { n with fp := n.fp + 1 }

def spilled (n : Counts) : ℕ := (n.gp - 6) + (n.fp - 8)

end Counts

/-- The list holds the first so many arguments of each class. -/
structure Valist.Filled (v : Valist) (n : Counts) : Prop where
  gp : v.gp_offset = 8 * min n.gp 6
  fp : firstFp v.fp_offset = 48 + 16 * min n.fp 8
  stack : v.stacksize = 8 * n.spilled
  size : v.overflow_size = grown n.spilled

variable {malloc : ℕ → Bool} {mem : ℕ → Byte} {v w : Valist} {n : Counts} {cls : RegClass}

theorem Valist.filled_empty : Valist.empty.Filled ⟨0, 0⟩ := ⟨rfl, rfl, rfl, rfl⟩

theorem pfGetOverflow_filled (h : v.Filled n) (hs : Grows malloc n.spilled) :
    ∃ area, hostrpc_pfGetOverflow malloc (v.stacksize + 8) v =
      if malloc (grown (n.spilled + 1)) then
        .ok { v with overflow_arg_area := area, overflow_size := grown (n.spilled + 1) }
      else .error .RC_STATUS_ERROR := by
  obtain ⟨hle, hzero⟩ := le_grown n.spilled
  have hneed : v.stacksize + 8 = 8 * (n.spilled + 1) := by
    rw [h.stack]
    ring
  unfold hostrpc_pfGetOverflow
  rw [hneed, h.size, grown]
  by_cases hfits : 8 * (n.spilled + 1) < grown n.spilled
  · have hpos : malloc (grown n.spilled) := hs n.spilled (by omega) le_rfl
    refine ⟨v.overflow_arg_area, ?_⟩
    rw [if_pos hfits, if_pos hfits, if_pos hpos, ← h.size]
  · have hsize : (if grown n.spilled = 0 then
        (if 8 * (n.spilled + 1) > FPREGSZ * 8 * 2 then 8 * (n.spilled + 1) else FPREGSZ * 8 * 2)
          else grown n.spilled * 2) =
        if grown n.spilled = 0 then FPREGSZ * 8 * 2 else grown n.spilled * 2 := by
      by_cases hnone : grown n.spilled = 0
      · rw [if_pos hnone, if_pos hnone, hzero.mp hnone]
        rfl
      · rw [if_neg hnone, if_neg hnone]
    rw [if_neg hfits, if_neg hfits]
    dsimp only
    rw [hsize]
    exact ⟨_, rfl⟩

theorem pfAdd_spill (h : v.Filled n) (hs : Grows malloc n.spilled)
    (hfull : ¬ v.offset cls + cls.slot ≤ cls.limit) (word : ℕ) :
    ∃ area, hostrpc_pfAdd malloc cls word v =
      if malloc (grown (n.spilled + 1)) then .ok (Valist.saveOverflow word
        { v with overflow_arg_area := area, overflow_size := grown (n.spilled + 1) })
      else .error .RC_STATUS_ERROR := by
  obtain ⟨area, hgrow⟩ := pfGetOverflow_filled h hs
  refine ⟨area, ?_⟩
  unfold hostrpc_pfAdd
  rw [if_neg hfull, hgrow]
  split_ifs <;> rfl

theorem Valist.Filled.start (h : v.Filled n) (cls : RegClass) : (v.start cls).Filled n := by
  cases cls with
  | gp => exact h
  | fp => exact ⟨h.gp, (firstFp_firstFp _).trans h.fp, h.stack, h.size⟩

theorem Valist.Filled.register (h : v.Filled n) (hstart : v.Started cls)
    (hfits : v.offset cls + cls.slot ≤ cls.limit) (word : ℕ) :
    (v.saveRegister cls word).Filled (n.next cls) ∧ (n.next cls).spilled = n.spilled := by
  obtain ⟨hgp, hfp, hstack, hsize⟩ := h
  cases cls with
  | gp =>
    have hroom : v.gp_offset + 8 ≤ 48 := hfits
    have hspilled : (n.next .gp).spilled = n.spilled := by
      simp only [Counts.next, Counts.spilled]
      omega
    refine ⟨⟨?_, hfp, by rw [hspilled]; exact hstack, by rw [hspilled]; exact hsize⟩, hspilled⟩
    show v.gp_offset + 8 = 8 * min (n.gp + 1) 6
    omega
  | fp =>
    have hset : v.fp_offset ≠ 0 := hstart rfl
    have hfirst : firstFp v.fp_offset = v.fp_offset := if_neg hset
    have hroom : v.fp_offset + 16 ≤ 176 := hfits
    have hspilled : (n.next .fp).spilled = n.spilled := by
      simp only [Counts.next, Counts.spilled]
      omega
    refine ⟨⟨hgp, ?_, by rw [hspilled]; exact hstack, by rw [hspilled]; exact hsize⟩, hspilled⟩
    show firstFp (v.fp_offset + 16) = 48 + 16 * min (n.fp + 1) 8
    unfold firstFp
    rw [if_neg (by omega)]
    omega

theorem Valist.Filled.overflow (h : v.Filled n) (hstart : v.Started cls)
    (hfull : ¬ v.offset cls + cls.slot ≤ cls.limit) (hs : (n.next cls).spilled = n.spilled + 1)
    (area : ℕ → Byte) (word : ℕ) :
    (Valist.saveOverflow word { v with
      overflow_arg_area := area, overflow_size := grown (n.next cls).spilled }).Filled (n.next cls) := by
  obtain ⟨hgp, hfp, hstack, -⟩ := h
  have hnext : v.stacksize + 8 = 8 * (n.next cls).spilled := by omega
  cases cls with
  | gp =>
    have hroom : ¬ v.gp_offset + 8 ≤ 48 := hfull
    refine ⟨?_, hfp, hnext, rfl⟩
    show v.gp_offset = 8 * min (n.gp + 1) 6
    omega
  | fp =>
    have hfirst : firstFp v.fp_offset = v.fp_offset := if_neg (hstart rfl)
    have hroom : ¬ v.fp_offset + 16 ≤ 176 := hfull
    refine ⟨hgp, ?_, hnext, rfl⟩
    show firstFp v.fp_offset = 48 + 16 * min (n.fp + 1) 8
    omega

theorem Valist.Filled.spilled_next (h : v.Filled n) (hstart : v.Started cls)
    (hfull : ¬ v.offset cls + cls.slot ≤ cls.limit) : (n.next cls).spilled = n.spilled + 1 := by
  obtain ⟨hgp, hfp, -, -⟩ := h
  cases cls with
  | gp =>
    have hroom : ¬ v.gp_offset + 8 ≤ 48 := hfull
    simp only [Counts.next, Counts.spilled]
    omega
  | fp =>
    have hfirst : firstFp v.fp_offset = v.fp_offset := if_neg (hstart rfl)
    have hroom : ¬ v.fp_offset + 16 ≤ 176 := hfull
    simp only [Counts.next, Counts.spilled]
    omega

/-- A word is added if and only if the area can grow as far as it has to. -/
theorem pfAdd_filled (h : v.Filled n) (hs : Grows malloc n.spilled) (cls : RegClass) (word : ℕ) :
    (Grows malloc (n.next cls).spilled ∧
      ∃ w, hostrpc_pfAdd malloc cls word (v.start cls) = .ok w ∧ w.Filled (n.next cls)) ∨
    (¬ Grows malloc (n.next cls).spilled ∧
      hostrpc_pfAdd malloc cls word (v.start cls) = .error .RC_STATUS_ERROR) := by
  have hfilled := h.start cls
  have hstart := start_started cls v
  by_cases hfits : (v.start cls).offset cls + cls.slot ≤ cls.limit
  · obtain ⟨hnext, hspilled⟩ := hfilled.register hstart hfits word
    rw [hspilled]
    exact .inl ⟨hs, _, if_pos hfits, hnext⟩
  · have hspilled := hfilled.spilled_next hstart hfits
    obtain ⟨area, hadd⟩ := pfAdd_spill hfilled hs hfits word
    have hnext := hfilled.overflow hstart hfits hspilled area word
    rw [hspilled] at hnext ⊢
    rw [hadd, grows_succ hs]
    by_cases hmalloc : malloc (grown (n.spilled + 1))
    · rw [if_pos hmalloc]
      exact .inl ⟨hmalloc, _, rfl, hnext⟩
    · rw [if_neg hmalloc]
      exact .inr ⟨hmalloc, rfl⟩

def Counts.add (n : Counts) (slots : List Slot) : Counts :=
  slots.foldl (fun n slot => n.next slot.cls) n

theorem Grows.mono {s t : ℕ} (h : Grows malloc t) (hle : s ≤ t) : Grows malloc s :=
  fun k hpos hk => h k hpos (hk.trans hle)

theorem Counts.spilled_le_next (n : Counts) (cls : RegClass) : n.spilled ≤ (n.next cls).spilled := by
  cases cls with
  | gp | fp =>
    simp only [Counts.next, Counts.spilled]
    omega

theorem Counts.spilled_le_add (n : Counts) (slots : List Slot) : n.spilled ≤ (n.add slots).spilled := by
  induction slots generalizing n with
  | nil => exact le_rfl
  | cons slot slots ih => exact (n.spilled_le_next slot.cls).trans (ih (n.next slot.cls))

/-- Every slot has a supported size, and the area can grow as far as they need. -/
def Addable (malloc : ℕ → Bool) (n : Counts) (slots : List Slot) : Prop :=
  (∀ slot ∈ slots, slot.Supported) ∧ Grows malloc (n.add slots).spilled

/-- The slots are added if and only if they are addable, and else one fails with a code. -/
theorem foldlM_filled (mem : ℕ → Byte) (h : v.Filled n) (hs : Grows malloc n.spilled)
    (slots : List Slot) :
    (Addable malloc n slots ∧
      ∃ w, slots.foldlM (fun v slot => pfAddSlot malloc mem slot v) v = .ok w) ∨
    (¬ Addable malloc n slots ∧
      ∃ rc, slots.foldlM (fun v slot => pfAddSlot malloc mem slot v) v = .error (.rc rc)) := by
  induction slots generalizing v n with
  | nil => exact .inl ⟨⟨by simp, hs⟩, v, rfl⟩
  | cons slot slots ih =>
    rw [List.foldlM_cons]
    by_cases hslot : slot.Supported
    · rw [pfAddSlot_supported hslot]
      rcases pfAdd_filled h hs slot.cls (slot.value mem) with ⟨hgrows, u, hadd, hu⟩ | ⟨hgrows, hadd⟩
      · rw [hadd]
        have hhead : Addable malloc n (slot :: slots) ↔ Addable malloc (n.next slot.cls) slots := by
          unfold Addable
          rw [List.forall_mem_cons]
          simp only [hslot, true_and]
          rfl
        rw [hhead]
        exact ih hu hgrows
      · rw [hadd]
        refine .inr ⟨fun hall => hgrows (hall.2.mono ?_), _, rfl⟩
        exact (n.next slot.cls).spilled_le_add slots
    · rw [pfAddSlot_unsupported hslot]
      exact .inr ⟨fun hall => hslot (hall.1 slot List.mem_cons_self), _, rfl⟩

/-- The arguments decode, or the first that does not has no whole byte and is divided by; what
decodes is addable. -/
def Unpacks (malloc : ℕ → Bool) (mem : ℕ → Byte) (n : ℕ) (c : Cursor) : Prop :=
  Addable malloc ⟨0, 0⟩ (decoded mem n c) ∧ (failure mem n c = none ∨ failure mem n c = some .divide)

theorem unpacks_iff {m : ℕ} {c : Cursor} (hmalloc : malloc sizeofRegSaveArea) :
    Unpacks malloc mem m c ↔ (∃ v, hostrpc_pfBuildValist malloc mem m c = .ok v) ∨
      hostrpc_pfBuildValist malloc mem m c = .error .divide := by
  unfold hostrpc_pfBuildValist Unpacks
  rw [if_pos hmalloc, argLoop_eq]
  rcases foldlM_filled mem Valist.filled_empty (grows_zero malloc) (decoded mem m c) with
    ⟨haddable, w, hfold⟩ | ⟨haddable, rc, hfold⟩
  · rw [hfold]
    cases failure mem m c with
    | none => simp [haddable, Except.bind]
    | some e => simp [haddable, Except.bind]
  · rw [hfold]
    simp [haddable, Except.bind]

/-- The cursors behind what the services take by hand. -/
def printfRest (mem : ℕ → Byte) (buf : ℕ) : Cursor :=
  let c := (header mem buf).cursor
  ⟨c.keyptr + 4, c.dataptr + 4, c.strptr + readLE mem c.dataptr 4, sizeT (c.data_not_used - 4)⟩

def fprintfRest (mem : ℕ → Byte) (buf : ℕ) : Cursor :=
  let c := (header mem buf).cursor
  let dataptr := c.dataptr + c.dataptr % 8
  ⟨c.keyptr + 8, dataptr + 8 + 4, c.strptr + readLE mem (dataptr + 8) 4, sizeT (c.data_not_used - 12)⟩

/-- When the service returns, every block that it has allocated has been freed once. -/
def ReleasesOnReturn {α : Type*} (x : Traced Block Failure α) : Prop :=
  x.result ≠ .error .divide → x.Releases

theorem finish_releases_iff {call : Valist → PrintCall} {m : ℕ} {c : Cursor} :
    ReleasesOnReturn (Heap.finish call (Heap.hostrpc_pfBuildValist malloc mem m c)) ↔
      malloc sizeofRegSaveArea = false ∨ Unpacks malloc mem m c := by
  unfold ReleasesOnReturn
  rw [Heap.AtEnd.released_iff (Heap.meets_finish (Heap.meets_pfBuildValist malloc mem m c)),
    Heap.result_finish, Heap.result_pfBuildValist]
  by_cases hmalloc : malloc sizeofRegSaveArea
  · rw [unpacks_iff hmalloc]
    cases hostrpc_pfBuildValist malloc mem m c with
    | ok v => simp [Except.mapError, Except.map]
    | error e => cases e <;> simp [Except.mapError, Except.map, Failure.invalid, hmalloc]
  · have hfalse : malloc sizeofRegSaveArea = false := by simpa using hmalloc
    simp [hfalse]

theorem releasesOnReturn_map {α β : Type*} {x : Traced Block Failure α} (f : α → β) :
    ReleasesOnReturn (x.bind fun a => .ok (f a)) ↔ ReleasesOnReturn x := by
  unfold ReleasesOnReturn Traced.Releases Traced.bind
  cases x.result with
  | ok a => simp [Traced.ok]
  | error e => simp

/-- `printf` and `fprintf` free what they have allocated if and only if there was nothing to
allocate, the first allocation failed, or every argument could be added. -/
theorem print_releases_iff (malloc : ℕ → Bool) (mem : ℕ → Byte) (buf bufsz : ℕ) :
    (ReleasesOnReturn (Heap.hostrpc_printf malloc mem buf bufsz) ↔
      bufsz = 0 ∨ (header mem buf).NumArgs ≤ 0 ∨ malloc sizeofRegSaveArea = false ∨
        Unpacks malloc mem ((header mem buf).NumArgs - 1).toNat (printfRest mem buf)) ∧
    (ReleasesOnReturn (Heap.hostrpc_fprintf malloc mem buf) ↔
      malloc sizeofRegSaveArea = false ∨
        Unpacks malloc mem ((header mem buf).NumArgs - 2).toNat (fprintfRest mem buf)) := by
  constructor
  · unfold Heap.hostrpc_printf
    by_cases hsz : bufsz = 0
    · rw [if_pos hsz]
      exact iff_of_true (fun _ => rfl) (.inl hsz)
    · rw [if_neg hsz]
      dsimp only
      by_cases hnone : (header mem buf).NumArgs ≤ 0
      · rw [if_pos hnone]
        exact iff_of_true (fun _ => rfl) (.inr (.inl hnone))
      · rw [if_neg hnone, releasesOnReturn_map, finish_releases_iff]
        simp only [hsz, hnone, false_or]
        rfl
  · exact finish_releases_iff

/-- A `printf` of one integer with 128 bits. -/
def int128Request (i : ℕ) : Byte :=
  [40, 0, 0, 0, 2, 0, 0, 0, 1, 0, 14, 0, 128, 0, 12, 0, 3, 0, 0, 0].getD i 0

/-- The size is not supported, and the register save area is left behind. -/
theorem int128_leaks : ¬ ReleasesOnReturn (Heap.hostrpc_printf (fun _ => true) int128Request 0 43) := by
  have hfails : (match (Heap.hostrpc_printf (fun _ => true) int128Request 0 43).result with
      | .error e => decide (e = .rc .RC_ERROR_INVALID_REQUEST)
      | .ok _ => false) = true := by decide +kernel
  have hregs : ((BlockHeap.empty.run (Heap.hostrpc_printf (fun _ => true) int128Request 0 43).ops).map
      fun h => h .regs) = some (some 176) := by decide +kernel
  intro h
  have hreleased := h fun hdivide => by
    rw [hdivide] at hfails
    exact absurd hfails (by decide)
  rw [hreleased] at hregs
  cases hregs

end Aomp.Arguments
