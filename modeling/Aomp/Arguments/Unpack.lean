import Aomp.Arguments.Layout
import Aomp.Arguments.Valist

/-!
# Unpacking the buffer on the host

`hostrpc_pfBuildValist` and `hostrpc_build_vargs_array` walk through the keys, the data and
the strings side by side. On a buffer that holds the entries they meet each argument where the
compiler has put it.
-/
namespace Aomp.Arguments

open Foundations

/-- `keyptr`, `dataptr`, `strptr` and `*data_not_used`. -/
structure Cursor where
  keyptr : ℕ
  dataptr : ℕ
  strptr : ℕ
  data_not_used : ℕ

/-- What the switch hands on: a number at an address with its size, or a string. -/
inductive Slot
  | float (dataptr num_bytes : ℕ)
  | integer (dataptr num_bytes : ℕ)
  | string (strptr : ℕ)

/-- A service fails with an error code, it has stored beyond its array of arguments, or it
divides by zero and does not return. -/
inductive Failure
  | rc (rc : ServiceRc)
  | overrun
  | divide
  deriving DecidableEq

def Cursor.number (c : Cursor) (slot : ℕ → ℕ → Slot) (num_bytes : ℕ) :
    Except Failure (Slot × Cursor) :=
  if num_bytes = 0 then .error .divide
  else
    let fillerNeeded := c.dataptr % num_bytes
    let bytes_consumed := num_bytes + fillerNeeded
    if c.data_not_used < bytes_consumed then .error (.rc .RC_DATA_USED_ERROR)
    else .ok (slot (c.dataptr + fillerNeeded) num_bytes,
      ⟨c.keyptr + 4, c.dataptr + fillerNeeded + num_bytes, c.strptr,
        c.data_not_used - bytes_consumed⟩)

/-- The string with the length at the data pointer. -/
def Cursor.text (c : Cursor) (mem : ℕ → Byte) : Except Failure (Slot × Cursor) :=
  if c.data_not_used < 4 then .error (.rc .RC_DATA_USED_ERROR)
  else .ok (.string c.strptr,
    ⟨c.keyptr + 4, c.dataptr + 4, c.strptr + readLE mem c.dataptr 4, c.data_not_used - 4⟩)

def Cursor.switch (c : Cursor) (mem : ℕ → Byte) (llvmID : Option TypeID) (numbits : ℕ) :
    Except Failure (Slot × Cursor) :=
  match llvmID with
  | some .FloatTyID | some .DoubleTyID | some .FP128TyID => c.number .float (numbits / 8)
  | some .IntegerTyID => c.number .integer (numbits / 8)
  | some .PointerTyID => if numbits = 1 then c.text mem else c.number .integer 8
  | some .HalfTyID | some .ArrayTyID | some .StructTyID | some .FunctionTyID | some .TokenTyID
  | some .MetadataTyID | some .LabelTyID | some .PPC_FP128TyID | some .X86_FP80TyID
  | some .FixedVectorTyID | some .ScalableVectorTyID | some .TypedPointerTyID
  | some .TargetExtTyID | some .VoidTyID => .error (.rc .RC_UNSUPPORTED_ID_ERROR)
  | some .BFloatTyID | some .X86_AMXTyID | none => .error (.rc .RC_INVALID_ID_ERROR)

def nextArg (mem : ℕ → Byte) (c : Cursor) : Except Failure (Slot × Cursor) :=
  let key := readLE mem c.keyptr 4
  c.switch mem (TypeID.ofValue (key / 2 ^ 16)) (key % 2 ^ 16)

/-- The loop over the arguments; `add` is what the two functions do with each. -/
def argLoop {S : Type*} (mem : ℕ → Byte) (add : Slot → S → Except Failure S) :
    ℕ → Cursor → S → Except Failure S
  | 0, _, s => .ok s
  | n + 1, c, s =>
    match nextArg mem c with
    | .error e => .error e
    | .ok (slot, c) => (add slot s).bind (argLoop mem add n c)

def pfAddSlot (malloc : ℕ → Bool) (mem : ℕ → Byte) (slot : Slot) (v : Valist) :
    Except Failure Valist :=
  match slot with
  | .float dataptr num_bytes =>
    (hostrpc_pfAddFloat malloc mem dataptr num_bytes (v.start .fp)).mapError
      fun _ => .rc .RC_ADDFLOAT_ERROR
  | .integer dataptr num_bytes =>
    (hostrpc_pfAddInteger malloc mem dataptr num_bytes v).mapError fun _ => .rc .RC_ADDINT_ERROR
  | .string strptr =>
    (hostrpc_pfAddString malloc strptr v).mapError fun _ => .rc .RC_ADDSTRING_ERROR

def hostrpc_pfBuildValist (malloc : ℕ → Bool) (mem : ℕ → Byte) (NumArgs : ℕ) (c : Cursor) :
    Except Failure Valist :=
  if malloc sizeofRegSaveArea then argLoop mem (pfAddSlot malloc mem) NumArgs c Valist.empty
  else .error (.rc .RC_STATUS_ERROR)

def MAXVARGS : ℕ := 32

/-- `a[argcount] = word`. -/
def storeArg (a : List ℕ) (word : ℕ) : Except Failure (List ℕ) :=
  if a.length < MAXVARGS then .ok (a ++ [word]) else .error .overrun

def addVarg (mem : ℕ → Byte) (slot : Slot) (a : List ℕ) : Except Failure (List ℕ) :=
  match slot with
  | .float dataptr num_bytes | .integer dataptr num_bytes =>
    storeArg a (if num_bytes = 4 then readLE mem dataptr 4 else readLE mem dataptr 8)
  | .string strptr => storeArg a strptr

/-- The entries of `a` that are stored. -/
def hostrpc_build_vargs_array (mem : ℕ → Byte) (NumArgs : ℕ) (c : Cursor) :
    Except Failure (List ℕ) :=
  argLoop mem (addVarg mem) NumArgs c []

/-- The word that an argument is handed on as, its string being at `str`. -/
def Entry.word (f : Entry) (buf str : ℕ) : RegClass × ℕ :=
  match f.arg with
  | .int32 v => (.gp, v.toNat)
  | .int64 v | .pointer v => (.gp, v.toNat)
  | .double v => (.fp, v.toNat)
  | .string _ => (.gp, buf + str)

def words (buf : ℕ) : ℕ → List Entry → List (RegClass × ℕ)
  | _, [] => []
  | str, f :: entries => f.word buf str :: words buf (str + f.text.length) entries

def Slot.Yields (mem : ℕ → Byte) (w : RegClass × ℕ) : Slot → Prop
  | .float dataptr num_bytes => num_bytes = 8 ∧ w = (.fp, readLE mem dataptr 8)
  | .integer dataptr num_bytes =>
    (num_bytes = 4 ∨ num_bytes = 8) ∧ w = (.gp, readLE mem dataptr num_bytes)
  | .string strptr => w = (.gp, strptr)

variable {mem : ℕ → Byte} {malloc : ℕ → Bool} {slot : Slot} {w : RegClass × ℕ}
  {buf key data str unused : ℕ} {f : Entry} {entries : List Entry}

theorem addVarg_eq (h : slot.Yields mem w) (a : List ℕ) : addVarg mem slot a = storeArg a w.2 := by
  cases slot with
  | float dataptr num_bytes =>
    obtain ⟨rfl, rfl⟩ := h
    rfl
  | integer dataptr num_bytes =>
    obtain ⟨rfl | rfl, rfl⟩ := h
    · rfl
    · rfl
  | string strptr =>
    obtain rfl : w = (.gp, strptr) := h
    rfl

/-- An error of `pfAddSlot` does not matter where adding the word succeeds. -/
theorem pfAddSlot_eq (h : slot.Yields mem w) {v u : Valist}
    (hadd : hostrpc_pfAdd malloc w.1 w.2 (v.start w.1) = .ok u) :
    pfAddSlot malloc mem slot v = .ok u := by
  cases slot with
  | float dataptr num_bytes =>
    obtain ⟨rfl, rfl⟩ := h
    simp only [pfAddSlot, hostrpc_pfAddFloat]
    rw [hadd]
    rfl
  | integer dataptr num_bytes =>
    obtain ⟨rfl | rfl, rfl⟩ := h
    · simp only [pfAddSlot, hostrpc_pfAddInteger]
      rw [show hostrpc_pfAdd malloc .gp (readLE mem dataptr 4) v = .ok u from hadd]
      rfl
    · simp only [pfAddSlot, hostrpc_pfAddInteger]
      rw [show hostrpc_pfAdd malloc .gp (readLE mem dataptr 8) v = .ok u from hadd]
      rfl
  | string strptr =>
    obtain rfl : w = (.gp, strptr) := h
    simp only [pfAddSlot, hostrpc_pfAddString]
    rw [show hostrpc_pfAdd malloc .gp strptr v = .ok u from hadd]
    rfl

theorem Entry.key_fields (f : Entry) : TypeID.ofValue (f.key / 2 ^ 16) = some f.arg.getType.getTypeID ∧
    f.key % 2 ^ 16 = f.arg.numbits := by
  have hkeys : ∀ id ∈ TypeID.all, ∀ n ∈ [0, 1, 32, 64],
      TypeID.ofValue (packTyBitlen id.value n / 2 ^ 16) = some id ∧
        packTyBitlen id.value n % 2 ^ 16 = n := by
    decide
  exact hkeys _ f.arg.key_mem.1 _ f.arg.key_mem.2

theorem numbits_div {a : Arg} (h : a.getType ≠ .PtrTy) :
    a.numbits / 8 = a.ArgType.getTypeAllocSize := by
  cases a with
  | int32 v | int64 v | double v =>
    simp [Arg.numbits, Arg.ArgType, Arg.getType, Ty.getScalarSizeInBits, Ty.getTypeAllocSize]
  | pointer v | string e => exact absurd rfl h

theorem filler_eq (hbuf : 8 ∣ buf) (f : Entry) : (buf + data) % f.size = data % f.size := by
  rcases f.size_cases with hs | hs <;> rw [hs] <;> omega

def before (buf key data str unused : ℕ) : Cursor := ⟨buf + key, buf + data, buf + str, unused⟩

def behind (buf key data str unused : ℕ) (f : Entry) : Cursor :=
  before buf (key + 4) (place data f + f.size) (str + f.text.length)
    (unused - (place data f + f.size - data))

theorem number_eq (hbuf : 8 ∣ buf) (htext : f.text = []) (hroom : place data f + f.size ≤ data + unused)
    (slot : ℕ → ℕ → Slot) : (before buf key data str unused).number slot f.size =
      .ok (slot (buf + place data f) f.size, behind buf key data str unused f) := by
  unfold place at hroom
  have hsize : f.size ≠ 0 := by rcases f.size_cases with hs | hs <;> omega
  unfold Cursor.number before
  dsimp only
  rw [if_neg hsize, filler_eq hbuf f, if_neg (by omega)]
  unfold behind before place
  rw [htext]
  congr 3
  · ring
  · ring
  · omega

theorem text_eq (hdata : 4 ∣ data) (hsize : f.size = 4) (hlength : f.text.length < 2 ^ 32)
    (hval : readLE mem (buf + place data f) f.size = f.text.length % 256 ^ f.size)
    (hroom : place data f + f.size ≤ data + unused) : (before buf key data str unused).text mem =
      .ok (.string (buf + str), behind buf key data str unused f) := by
  have hplace : place data f = data := by
    unfold place
    rw [hsize]
    omega
  rw [hplace, hsize] at hval hroom
  rw [show (256 : ℕ) ^ 4 = 2 ^ 32 from rfl, Nat.mod_eq_of_lt hlength] at hval
  unfold Cursor.text before
  dsimp only
  rw [if_neg (by omega), hval]
  unfold behind before
  rw [hplace, hsize]
  congr 3
  · ring
  · omega

theorem stored_eq {n v : ℕ} (hval : readLE mem (buf + place data f) f.size = f.stored % 256 ^ f.size)
    (hsize : f.size = n) (hstored : f.stored = v) (hv : v < 256 ^ n) :
    readLE mem (buf + place data f) n = v := by
  rw [hsize, hstored, Nat.mod_eq_of_lt hv] at hval
  exact hval

/-- In front of a field the switch takes this field. -/
theorem nextArg_laid (hbuf : 8 ∣ buf) (hdata : 4 ∣ data) (hentry : f.Lowered)
    (hlength : f.text.length < 2 ^ 32) (hkey : readLE mem (buf + key) 4 = f.key)
    (hval : readLE mem (buf + place data f) f.size = f.stored % 256 ^ f.size)
    (hroom : place data f + f.size ≤ data + unused) :
    ∃ slot, nextArg mem (before buf key data str unused) =
        .ok (slot, behind buf key data str unused f) ∧ slot.Yields mem (f.word buf str) := by
  obtain ⟨hid, hbits⟩ := f.key_fields
  have hnext : nextArg mem (before buf key data str unused) =
      (before buf key data str unused).switch mem (some f.arg.getType.getTypeID) f.arg.numbits := by
    unfold nextArg
    dsimp only
    rw [show (before buf key data str unused).keyptr = buf + key from rfl, hkey, hid, hbits]
  have hnumber : f.text = [] → ∀ slot, (before buf key data str unused).number slot f.size =
      .ok (slot (buf + place data f) f.size, behind buf key data str unused f) :=
    fun htext slot => number_eq hbuf htext hroom slot
  have hdiv := fun h => numbits_div (a := f.arg) h
  have hfour : (256 : ℕ) ^ 4 = 2 ^ 32 := by norm_num
  have height : (256 : ℕ) ^ 8 = 2 ^ 64 := by norm_num
  rw [hnext]
  obtain ⟨arg, text⟩ := f
  cases arg with
  | int32 v =>
    have hword := stored_eq hval (n := 4) (v := v.toNat) rfl rfl (hfour ▸ v.isLt)
    refine ⟨.integer (buf + place data ⟨.int32 v, text⟩) 4, ?_, .inl rfl, Prod.ext rfl hword.symm⟩
    show (before buf key data str unused).number .integer (Arg.numbits (.int32 v) / 8) = _
    rw [hdiv (by simp [Arg.getType])]
    exact hnumber (hentry.text_eq_nil (by simp)) .integer
  | int64 v =>
    have hword := stored_eq hval (n := 8) (v := v.toNat) rfl rfl (height ▸ v.isLt)
    refine ⟨.integer (buf + place data ⟨.int64 v, text⟩) 8, ?_, .inr rfl, Prod.ext rfl hword.symm⟩
    show (before buf key data str unused).number .integer (Arg.numbits (.int64 v) / 8) = _
    rw [hdiv (by simp [Arg.getType])]
    exact hnumber (hentry.text_eq_nil (by simp)) .integer
  | double v =>
    have hword := stored_eq hval (n := 8) (v := v.toNat) rfl rfl (height ▸ v.isLt)
    refine ⟨.float (buf + place data ⟨.double v, text⟩) 8, ?_, rfl, Prod.ext rfl hword.symm⟩
    show (before buf key data str unused).number .float (Arg.numbits (.double v) / 8) = _
    rw [hdiv (by simp [Arg.getType])]
    exact hnumber (hentry.text_eq_nil (by simp)) .float
  | pointer v =>
    have hword := stored_eq hval (n := 8) (v := v.toNat) rfl rfl (height ▸ v.isLt)
    exact ⟨.integer (buf + place data ⟨.pointer v, text⟩) 8,
      hnumber (hentry.text_eq_nil (by simp)) .integer, .inr rfl, Prod.ext rfl hword.symm⟩
  | string e => exact ⟨.string _, text_eq hdata rfl hlength hval hroom, rfl⟩

/-- The loop adds the words of the entries in turn. -/
theorem argLoop_laid {S E : Type*} {add : Slot → S → Except Failure S}
    {step : S → RegClass × ℕ → Except E S} (hbuf : 8 ∣ buf) (hdata : 4 ∣ data)
    (hentries : ∀ f ∈ entries, f.Lowered ∧ f.text.length < 2 ^ 32)
    (hlaid : Laid mem buf key data str entries) (hroom : dataEnd data entries ≤ data + unused)
    (hadd : ∀ slot w s u, slot.Yields mem w → step s w = .ok u → add slot s = .ok u) {s t : S}
    (h : (words buf str entries).foldlM step s = .ok t) :
    argLoop mem add entries.length (before buf key data str unused) s = .ok t := by
  induction entries generalizing key data str unused s with
  | nil =>
    obtain rfl : s = t := Except.ok.inj h
    rfl
  | cons f entries ih =>
    obtain ⟨hkey, hval, -, hrest⟩ := hlaid
    obtain ⟨hentry, hlength⟩ := hentries f List.mem_cons_self
    rw [dataEnd] at hroom
    have hend := le_dataEnd (place data f + f.size) entries
    have hplace := le_place data f
    have hfits : place data f + f.size ≤ data + unused := by omega
    obtain ⟨slot, hnext, hyields⟩ : ∃ slot, nextArg mem (before buf key data str unused) =
        .ok (slot, behind buf key data str unused f) ∧ slot.Yields mem (f.word buf str) :=
      nextArg_laid hbuf hdata hentry hlength hkey hval hfits
    rw [words, List.foldlM_cons] at h
    cases hstep : step s (f.word buf str) with
    | error e =>
      rw [hstep] at h
      cases h
    | ok u =>
      rw [hstep] at h
      rw [List.length_cons, argLoop, hnext]
      dsimp only
      rw [hadd slot _ s u hyields hstep]
      exact ih (four_dvd_next hdata) (fun g hg => hentries g (List.mem_cons_of_mem _ hg)) hrest
        (by omega) h

theorem pfBuildValist_laid (hmalloc : ∀ n, malloc n = true) (hbuf : 8 ∣ buf) (hdata : 4 ∣ data)
    (hentries : ∀ f ∈ entries, f.Lowered ∧ f.text.length < 2 ^ 32)
    (hlaid : Laid mem buf key data str entries) (hroom : dataEnd data entries ≤ data + unused) :
    ∃ v, hostrpc_pfBuildValist malloc mem entries.length (before buf key data str unused) = .ok v ∧
      va_args ((words buf str entries).map Prod.fst) v.rollBack =
        (words buf str entries).map fun w => w.2 % 256 ^ 8 := by
  obtain ⟨v, hadds, hargs⟩ := va_args_rollBack hmalloc (words buf str entries)
  refine ⟨v, ?_, hargs⟩
  unfold hostrpc_pfBuildValist
  rw [if_pos (hmalloc _)]
  refine argLoop_laid hbuf hdata hentries hlaid hroom ?_ hadds
  intro slot w v u hyields hstep
  exact pfAddSlot_eq hyields hstep

theorem length_words (buf str : ℕ) (entries : List Entry) :
    (words buf str entries).length = entries.length := by
  induction entries generalizing str with
  | nil => rfl
  | cons f entries ih => rw [words, List.length_cons, ih, List.length_cons]

theorem foldlM_storeArg (ws : List (RegClass × ℕ)) (a : List ℕ) (h : a.length + ws.length ≤ MAXVARGS) :
    ws.foldlM (fun a w => storeArg a w.2) a = .ok (a ++ ws.map Prod.snd) := by
  induction ws generalizing a with
  | nil => exact congrArg Except.ok (List.append_nil a).symm
  | cons w ws ih =>
    rw [List.length_cons] at h
    have hstore : storeArg a w.2 = .ok (a ++ [w.2]) := if_pos (by omega)
    rw [List.foldlM_cons, hstore]
    refine (ih (a ++ [w.2]) ?_).trans ?_
    · rw [List.length_append, List.length_singleton]
      omega
    · simp

theorem build_vargs_array_laid (hbuf : 8 ∣ buf) (hdata : 4 ∣ data)
    (hentries : ∀ f ∈ entries, f.Lowered ∧ f.text.length < 2 ^ 32)
    (hlaid : Laid mem buf key data str entries) (hroom : dataEnd data entries ≤ data + unused)
    (hcount : entries.length ≤ MAXVARGS) :
    hostrpc_build_vargs_array mem entries.length (before buf key data str unused) =
      .ok ((words buf str entries).map Prod.snd) := by
  unfold hostrpc_build_vargs_array
  refine argLoop_laid hbuf hdata hentries hlaid hroom (fun slot w a u hyields hstep => ?_)
    (foldlM_storeArg _ [] ?_)
  · rw [addVarg_eq hyields]
    exact hstep
  · rw [length_words]
    simpa using hcount

end Aomp.Arguments
