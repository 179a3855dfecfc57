import Aomp.Foundations.Bytes

/-!
# The `va_list` for `vprintf`

The host puts the arguments that it decodes into the register save area of a `va_list`, and
those that do not fit into its overflow area, which it makes larger when needed. What
`va_arg` takes out of the result are the words that went in.
-/
namespace Aomp.Arguments

open Foundations

/-- The errors of the service functions that unpack arguments. -/
inductive ServiceRc
  | RC_STATUS_ERROR
  | RC_DATA_USED_ERROR
  | RC_ADDINT_ERROR
  | RC_ADDFLOAT_ERROR
  | RC_ADDSTRING_ERROR
  | RC_UNSUPPORTED_ID_ERROR
  | RC_INVALID_ID_ERROR
  | RC_ERROR_INVALID_REQUEST
  | RC_EXCEED_MAXVARGS_ERROR
  deriving DecidableEq

/-- `hostrpc_ValistExt_t`, the two areas from their first byte on. `stacksize` is the part of
the overflow area that is filled; for `va_arg` it is the part that is taken. -/
structure Valist where
  gp_offset : ℕ
  fp_offset : ℕ
  overflow_arg_area : ℕ → Byte
  reg_save_area : ℕ → Byte
  overflow_size : ℕ
  stacksize : ℕ

/-- The integer and the floating point registers. -/
inductive RegClass
  | gp
  | fp
  deriving DecidableEq

/-- `sizeof(hostrpc_pfIntRegs_t)`. -/
def sizeofIntRegs : ℕ := 48

/-- `sizeof(hostrpc_pfRegSaveArea_t)`. -/
def sizeofRegSaveArea : ℕ := 176

def FPREGSZ : ℕ := 16

namespace RegClass

def slot : RegClass → ℕ
  | gp => 8
  | fp => FPREGSZ

def limit : RegClass → ℕ
  | gp => sizeofIntRegs
  | fp => sizeofRegSaveArea

end RegClass

/-- `fp_offset` is 0 until the first floating point argument. -/
def firstFp (fp_offset : ℕ) : ℕ := if fp_offset = 0 then sizeofIntRegs else fp_offset

namespace Valist

def offset : RegClass → Valist → ℕ
  | .gp, v => v.gp_offset
  | .fp, v => v.fp_offset

def advance : RegClass → Valist → Valist
  | .gp, v => { v with gp_offset := v.gp_offset + 8 }
  | .fp, v => { v with fp_offset := v.fp_offset + FPREGSZ }

def saveRegister (cls : RegClass) (word : ℕ) (v : Valist) : Valist :=
  advance cls { v with
    reg_save_area := Store.write 0 v.reg_save_area ⟨v.offset cls, leBytes 8 word⟩ }

def saveOverflow (word : ℕ) (v : Valist) : Valist :=
  { v with
    overflow_arg_area := Store.write 0 v.overflow_arg_area ⟨v.stacksize, leBytes 8 word⟩
    stacksize := v.stacksize + 8 }

/-- The list before the first argument. -/
def empty : Valist := ⟨0, 0, fun _ => 0, fun _ => 0, 0, 0⟩

end Valist

/-- `hostrpc_pfGetOverflow`; `malloc n` is whether an allocation of `n` bytes succeeds. -/
def hostrpc_pfGetOverflow (malloc : ℕ → Bool) (needsize : ℕ) (v : Valist) :
    Except ServiceRc Valist :=
  if needsize < v.overflow_size then .ok v
  else
    let stacksize := if v.overflow_size = 0 then
        (if needsize > FPREGSZ * 8 * 2 then needsize else FPREGSZ * 8 * 2)
      else v.overflow_size * 2
    if malloc stacksize then
      .ok { v with
        overflow_arg_area := fun i => if i < v.overflow_size then v.overflow_arg_area i else 0
        overflow_size := stacksize }
    else .error .RC_STATUS_ERROR

/-- The common part of `hostrpc_pfAddInteger`, `hostrpc_pfAddString` and `hostrpc_pfAddFloat`:
eight bytes go to the next register or to the overflow area. -/
def hostrpc_pfAdd (malloc : ℕ → Bool) (cls : RegClass) (word : ℕ) (v : Valist) :
    Except ServiceRc Valist :=
  if v.offset cls + cls.slot ≤ cls.limit then .ok (v.saveRegister cls word)
  else (hostrpc_pfGetOverflow malloc (v.stacksize + 8) v).map (Valist.saveOverflow word)

/-- `hostrpc_pfAddInteger`. A size of 2 is read as 4 bytes. -/
def hostrpc_pfAddInteger (malloc : ℕ → Bool) (mem : ℕ → Byte) (val valsize : ℕ) (v : Valist) :
    Except ServiceRc Valist :=
  match valsize with
  | 1 => hostrpc_pfAdd malloc .gp (readLE mem val 1) v
  | 2 => hostrpc_pfAdd malloc .gp (readLE mem val 4) v
  | 4 => hostrpc_pfAdd malloc .gp (readLE mem val 4) v
  | 8 => hostrpc_pfAdd malloc .gp (readLE mem val 8) v
  | _ => .error .RC_STATUS_ERROR

/-- `hostrpc_pfAddString`: the pointer, not the string. -/
def hostrpc_pfAddString (malloc : ℕ → Bool) (strptr : ℕ) (v : Valist) : Except ServiceRc Valist :=
  hostrpc_pfAdd malloc .gp strptr v

/-- `hostrpc_pfAddFloat`. A `float` is extended to `double`. -/
def hostrpc_pfAddFloat (malloc : ℕ → Bool) (mem : ℕ → Byte) (numdata valsize : ℕ) (v : Valist) :
    Except ServiceRc Valist :=
  match valsize with
  | 4 => hostrpc_pfAdd malloc .fp
      (Float32.ofBits (UInt32.ofNat (readLE mem numdata 4))).toFloat.toBits.toNat v
  | 8 => hostrpc_pfAdd malloc .fp (readLE mem numdata 8) v
  | _ => .error .RC_STATUS_ERROR

def va_arg (cls : RegClass) (v : Valist) : ℕ × Valist :=
  if v.offset cls + cls.slot ≤ cls.limit then
    (readLE v.reg_save_area (v.offset cls) 8, Valist.advance cls v)
  else
    (readLE v.overflow_arg_area v.stacksize 8, { v with stacksize := v.stacksize + 8 })

/-- What a sequence of `va_arg` takes. -/
def va_args : List RegClass → Valist → List ℕ
  | [], _ => []
  | cls :: rest, v => (va_arg cls v).1 :: va_args rest (va_arg cls v).2

/-- The list that `vprintf` is given: the offsets are rolled back. -/
def Valist.rollBack (v : Valist) : Valist :=
  { v with gp_offset := 0, fp_offset := sizeofIntRegs, stacksize := 0 }

namespace Valist

/-- The integer registers stay below the floating point registers, and the overflow area
has room for what it holds. -/
structure Sound (v : Valist) : Prop where
  gp : v.gp_offset ≤ sizeofIntRegs
  fp : v.fp_offset = 0 ∨ sizeofIntRegs ≤ v.fp_offset
  room : v.stacksize ≤ v.overflow_size
  grown : v.overflow_size = 0 ∨ 8 ≤ v.overflow_size

theorem sound_empty : empty.Sound := ⟨by decide, .inl rfl, le_rfl, .inl rfl⟩

/-- What is used of `v` is the same in `w`, where as much is used or more. -/
structure Kept (v w : Valist) : Prop where
  gp : v.gp_offset ≤ w.gp_offset
  fp : firstFp v.fp_offset ≤ firstFp w.fp_offset
  stack : v.stacksize ≤ w.stacksize
  regs : ∀ a, a < v.gp_offset ∨ sizeofIntRegs ≤ a ∧ a < firstFp v.fp_offset →
    w.reg_save_area a = v.reg_save_area a
  overflow : ∀ a < v.stacksize, w.overflow_arg_area a = v.overflow_arg_area a

theorem Kept.rfl {v : Valist} : v.Kept v :=
  ⟨le_rfl, le_rfl, le_rfl, fun _ _ => Eq.refl _, fun _ _ => Eq.refl _⟩

theorem Kept.trans {u v w : Valist} (h : u.Kept v) (h' : v.Kept w) : u.Kept w := by
  have hgp := h.gp
  have hfp := h.fp
  have hstack := h.stack
  refine ⟨hgp.trans h'.gp, hfp.trans h'.fp, hstack.trans h'.stack, fun a ha => ?_, fun a ha => ?_⟩
  · exact (h'.regs a (by omega)).trans (h.regs a ha)
  · exact (h'.overflow a (by omega)).trans (h.overflow a ha)

def seek (v f : Valist) : Valist :=
  { f with
    gp_offset := v.gp_offset
    fp_offset := firstFp v.fp_offset
    stacksize := v.stacksize }

def Started (cls : RegClass) (v : Valist) : Prop := cls = .fp → v.fp_offset ≠ 0

end Valist

open Valist

variable {malloc : ℕ → Bool} {v w f : Valist} {cls : RegClass}

/-- The overflow area has room for one more word and keeps what it holds. -/
theorem hostrpc_pfGetOverflow_spec (hmalloc : ∀ n, malloc n = true) (hv : v.Sound) :
    ∃ area size, hostrpc_pfGetOverflow malloc (v.stacksize + 8) v =
        .ok { v with overflow_arg_area := area, overflow_size := size } ∧
      v.stacksize + 8 ≤ size ∧ 8 ≤ size ∧ ∀ a < v.stacksize, area a = v.overflow_arg_area a := by
  have hroom := hv.room
  have hgrown := hv.grown
  unfold hostrpc_pfGetOverflow FPREGSZ
  by_cases hfits : v.stacksize + 8 < v.overflow_size
  · exact ⟨v.overflow_arg_area, v.overflow_size, by simp [hfits], by omega, by omega,
      fun _ _ => rfl⟩
  · refine ⟨fun i => if i < v.overflow_size then v.overflow_arg_area i else 0,
      if v.overflow_size = 0 then (if v.stacksize + 8 > 16 * 8 * 2 then v.stacksize + 8 else
        16 * 8 * 2) else v.overflow_size * 2, ?_, ?_, ?_, fun a ha => if_pos (by omega)⟩
    · simp only [hfits, hmalloc, if_true, if_false]
    · split_ifs <;> omega
    · split_ifs <;> omega

theorem readLE_write {area area' : ℕ → Byte} {off word : ℕ}
    (h : ∀ a, off ≤ a → a < off + 8 →
      area' a = Store.write 0 area ⟨off, leBytes 8 word⟩ a) :
    readLE area' off 8 = word % 256 ^ 8 := by
  have hheld : Store.Held ⟨off, leBytes 8 word⟩ (Store.write 0 area ⟨off, leBytes 8 word⟩) 0 :=
    Store.held_write
  have hread := hheld.readLE
  rw [zero_add] at hread
  rw [← hread]
  exact readLE_congr fun i hi => h (off + i) (by omega) (by omega)

theorem seek_offset (hcls : Started cls v) : (seek v f).offset cls = v.offset cls := by
  cases cls with
  | gp => rfl
  | fp => exact if_neg (hcls rfl)

/-- A word that goes to a register. -/
theorem pfAdd_register (hv : v.Sound) (hcls : Started cls v)
    (hfits : v.offset cls + cls.slot ≤ cls.limit) (word : ℕ) :
    ∃ w, hostrpc_pfAdd malloc cls word v = .ok w ∧ w.Sound ∧ v.Kept w ∧
      ∀ f, w.Kept f → va_arg cls (seek v f) = (word % 256 ^ 8, seek w f) := by
  have hgp := hv.gp
  have hfp := hv.fp
  refine ⟨v.saveRegister cls word, if_pos hfits, ?_⟩
  cases cls with
  | gp =>
    have hroom : v.gp_offset + 8 ≤ sizeofIntRegs := hfits
    refine ⟨⟨hroom, hfp, hv.room, hv.grown⟩, ⟨Nat.le_add_right _ _, le_rfl, le_rfl,
      fun a ha => ?_, fun _ _ => rfl⟩, fun f hf => ?_⟩
    · show Store.write 0 v.reg_save_area ⟨v.gp_offset, leBytes 8 word⟩ a = _
      rcases ha with ha | ⟨ha, -⟩
      · exact Store.write_of_lt (by simpa using ha)
      · apply Store.write_of_le
        simp only [Store.finish, length_leBytes]
        omega
    · unfold va_arg
      rw [seek_offset hcls, if_pos hfits]
      exact Prod.ext (readLE_write fun a _ ha => hf.regs a (.inl ha)) rfl
  | fp =>
    have hset : v.fp_offset ≠ 0 := hcls rfl
    have hnext : firstFp (v.fp_offset + FPREGSZ) = firstFp v.fp_offset + FPREGSZ := by
      unfold firstFp
      rw [if_neg hset, if_neg (by omega)]
    have hfirst : firstFp v.fp_offset = v.fp_offset := if_neg hset
    have hbase : sizeofIntRegs ≤ v.fp_offset := hfp.resolve_left hset
    refine ⟨⟨hgp, .inr (Nat.le_add_right_of_le hbase), hv.room, hv.grown⟩, ⟨le_rfl, ?_, le_rfl,
      fun a ha => ?_, fun _ _ => rfl⟩, fun f hf => ?_⟩
    · exact (Nat.le_add_right _ _).trans hnext.ge
    · rw [hfirst] at ha
      exact Store.write_of_lt (show a < 0 + v.fp_offset by omega)
    · unfold va_arg
      rw [seek_offset hcls, if_pos hfits]
      refine Prod.ext (readLE_write fun a ha ha' => hf.regs a (.inr ⟨?_, ?_⟩)) ?_
      · exact hbase.trans ha
      · refine lt_of_lt_of_eq ?_ hnext.symm
        rw [hfirst]
        exact ha'.trans_le (Nat.add_le_add_left (by decide) _)
      · show Valist.advance .fp (seek v f) = _
        unfold seek Valist.saveRegister Valist.advance
        dsimp only
        rw [hnext]

theorem pfAdd_overflow (hmalloc : ∀ n, malloc n = true) (hv : v.Sound) (hcls : Started cls v)
    (hfull : ¬ v.offset cls + cls.slot ≤ cls.limit) (word : ℕ) :
    ∃ w, hostrpc_pfAdd malloc cls word v = .ok w ∧ w.Sound ∧ v.Kept w ∧
      ∀ f, w.Kept f → va_arg cls (seek v f) = (word % 256 ^ 8, seek w f) := by
  obtain ⟨area, size, hgrow, hroom, hsize, hkept⟩ := hostrpc_pfGetOverflow_spec hmalloc hv
  refine ⟨saveOverflow word { v with overflow_arg_area := area, overflow_size := size }, ?_,
    ⟨hv.gp, hv.fp, hroom, .inr hsize⟩, ?_, fun f hf => ?_⟩
  · unfold hostrpc_pfAdd
    rw [if_neg hfull, hgrow]
    rfl
  · refine ⟨le_rfl, le_rfl, Nat.le_add_right _ _, fun _ _ => rfl, fun a ha => ?_⟩
    exact (Store.write_of_lt (by simpa using ha)).trans (hkept a ha)
  · unfold va_arg
    rw [seek_offset hcls, if_neg hfull]
    exact Prod.ext (readLE_write fun a _ ha => hf.overflow a ha) rfl

/-- `fp_offset` is set when the first floating point argument is added. -/
def Valist.start : RegClass → Valist → Valist
  | .gp, v => v
  | .fp, v => { v with fp_offset := firstFp v.fp_offset }

theorem firstFp_pos (n : ℕ) : firstFp n ≠ 0 := by
  unfold firstFp sizeofIntRegs
  split_ifs with h
  · decide
  · exact h

theorem firstFp_firstFp (n : ℕ) : firstFp (firstFp n) = firstFp n := if_neg (firstFp_pos n)

theorem start_started (cls : RegClass) (v : Valist) : Started cls (v.start cls) := by
  intro hcls
  subst hcls
  exact firstFp_pos _

theorem start_sound (cls : RegClass) (hv : v.Sound) : (v.start cls).Sound := by
  cases cls with
  | gp => exact hv
  | fp =>
    refine ⟨hv.gp, .inr ?_, hv.room, hv.grown⟩
    show sizeofIntRegs ≤ firstFp v.fp_offset
    unfold firstFp
    split_ifs with h
    · exact le_rfl
    · exact hv.fp.resolve_left h

theorem start_kept (cls : RegClass) (v : Valist) : v.Kept (v.start cls) := by
  cases cls with
  | gp => exact Kept.rfl
  | fp => exact ⟨le_rfl, (firstFp_firstFp _).ge, le_rfl, fun _ _ => rfl, fun _ _ => rfl⟩

theorem seek_start (cls : RegClass) (v f : Valist) : seek (v.start cls) f = seek v f := by
  cases cls with
  | gp => rfl
  | fp =>
    show { f with
      gp_offset := v.gp_offset
      fp_offset := firstFp (firstFp v.fp_offset)
      stacksize := v.stacksize } = seek v f
    rw [firstFp_firstFp]
    rfl

/-- Adding a word always succeeds, and as long as it is kept `va_arg` takes it out. -/
theorem pfAdd_spec (hmalloc : ∀ n, malloc n = true) (cls : RegClass) (word : ℕ) (hv : v.Sound) :
    ∃ w, hostrpc_pfAdd malloc cls word (v.start cls) = .ok w ∧ w.Sound ∧ v.Kept w ∧
      ∀ f, w.Kept f → va_arg cls (seek v f) = (word % 256 ^ 8, seek w f) := by
  have hstart := start_sound cls hv
  have hstarted := start_started cls v
  have hadd : ∃ w, hostrpc_pfAdd malloc cls word (v.start cls) = .ok w ∧ w.Sound ∧
      (v.start cls).Kept w ∧
        ∀ f, w.Kept f → va_arg cls (seek (v.start cls) f) = (word % 256 ^ 8, seek w f) := by
    by_cases hfits : (v.start cls).offset cls + cls.slot ≤ cls.limit
    · exact pfAdd_register hstart hstarted hfits word
    · exact pfAdd_overflow hmalloc hstart hstarted hfits word
  obtain ⟨w, hok, hsound, hkept, harg⟩ := hadd
  simp only [seek_start] at harg
  exact ⟨w, hok, hsound, (start_kept cls v).trans hkept, harg⟩

theorem pfGetOverflow_of_ok {needsize : ℕ} (h : hostrpc_pfGetOverflow malloc needsize v = .ok w) :
    hostrpc_pfGetOverflow (fun _ => true) needsize v = .ok w := by
  unfold hostrpc_pfGetOverflow at h ⊢
  by_cases hfits : needsize < v.overflow_size
  · rw [if_pos hfits] at h ⊢
    exact h
  · rw [if_neg hfits] at h ⊢
    dsimp only at h ⊢
    generalize (if v.overflow_size = 0 then
      (if needsize > FPREGSZ * 8 * 2 then needsize else FPREGSZ * 8 * 2)
        else v.overflow_size * 2) = stacksize at h ⊢
    rw [if_pos rfl]
    split at h
    · exact h
    · cases h

theorem pfAdd_of_ok {word : ℕ} (h : hostrpc_pfAdd malloc cls word v = .ok w) :
    hostrpc_pfAdd (fun _ => true) cls word v = .ok w := by
  unfold hostrpc_pfAdd at h ⊢
  by_cases hfits : v.offset cls + cls.slot ≤ cls.limit
  · rw [if_pos hfits] at h ⊢
    exact h
  · rw [if_neg hfits] at h ⊢
    cases hgrow : hostrpc_pfGetOverflow malloc (v.stacksize + 8) v with
    | error e =>
      rw [hgrow] at h
      cases h
    | ok u =>
      rw [hgrow] at h
      rw [pfGetOverflow_of_ok hgrow]
      exact h

/-- What is put into the list comes out of it in the same order. -/
theorem va_args_of_adds (hmalloc : ∀ n, malloc n = true) (words : List (RegClass × ℕ))
    (hv : v.Sound) : ∃ w,
      words.foldlM (fun v p => hostrpc_pfAdd malloc p.1 p.2 (v.start p.1)) v = .ok w ∧ v.Kept w ∧
        ∀ f, w.Kept f → va_args (words.map Prod.fst) (seek v f) =
          words.map fun p => p.2 % 256 ^ 8 := by
  induction words generalizing v with
  | nil => exact ⟨v, rfl, Kept.rfl, fun _ _ => rfl⟩
  | cons p words ih =>
    obtain ⟨u, hu, hsound, hkept, harg⟩ := pfAdd_spec hmalloc p.1 p.2 hv
    obtain ⟨w, hw, hrest, hargs⟩ := ih hsound
    refine ⟨w, ?_, hkept.trans hrest, fun f hf => ?_⟩
    · rw [List.foldlM_cons, hu]
      exact hw
    · rw [List.map_cons, List.map_cons, va_args, harg f (hrest.trans hf)]
      exact congrArg _ (hargs f hf)

theorem va_args_rollBack (hmalloc : ∀ n, malloc n = true) (words : List (RegClass × ℕ)) :
    ∃ w, words.foldlM (fun v p => hostrpc_pfAdd malloc p.1 p.2 (v.start p.1)) Valist.empty = .ok w ∧
      va_args (words.map Prod.fst) w.rollBack = words.map fun p => p.2 % 256 ^ 8 := by
  obtain ⟨w, hw, -, hargs⟩ := va_args_of_adds hmalloc words sound_empty
  exact ⟨w, hw, hargs w Kept.rfl⟩

end Aomp.Arguments
