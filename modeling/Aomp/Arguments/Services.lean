import Aomp.Arguments.Unpack

/-!
# The services that unpack the buffer

`hostrpc_printf`, `hostrpc_fprintf` and `hostexec_service` read the header, take the first
arguments by hand and leave the others to the walk.
-/
namespace Aomp.Arguments

open Foundations

/-- The `int` at an address. -/
def readInt (mem : ℕ → Byte) (a : ℕ) : ℤ := (BitVec.ofNat 32 (readLE mem a 4)).toInt

/-- A number as a `size_t` or an address. -/
def sizeT (z : ℤ) : ℕ := (z % 2 ^ 64).toNat

/-- `NumArgs`, and the four values of the cursor. -/
structure Header where
  NumArgs : ℤ
  cursor : Cursor

/-- The values that all services get first. -/
def header (mem : ℕ → Byte) (buf : ℕ) : Header :=
  let datalen := readInt mem buf
  let NumArgs := readInt mem (buf + 4)
  ⟨NumArgs, ⟨buf + 8, sizeT (buf + 8 + NumArgs * 4), sizeT (buf + datalen),
    sizeT (datalen - (2 + NumArgs) * 4)⟩⟩

/-- A call of `vprintf`, or with a file of `vfprintf`. -/
structure PrintCall where
  file : Option ℕ
  fmtstr : ℕ
  valist : Valist

def Failure.invalid : Failure → Failure
  | .rc _ => .rc .RC_ERROR_INVALID_REQUEST
  | .overrun => .overrun
  | .divide => .divide

/-- `hostrpc_printf` up to the call that it makes. -/
def hostrpc_printf (malloc : ℕ → Bool) (mem : ℕ → Byte) (buf bufsz : ℕ) :
    Except Failure (Option PrintCall) :=
  if bufsz = 0 then .ok none
  else
    let h := header mem buf
    let c := h.cursor
    if h.NumArgs ≤ 0 then .error (.rc .RC_ERROR_INVALID_REQUEST)
    else
      let strsz := readLE mem c.dataptr 4
      let rest : Cursor :=
        ⟨c.keyptr + 4, c.dataptr + 4, c.strptr + strsz, sizeT (c.data_not_used - 4)⟩
      ((hostrpc_pfBuildValist malloc mem (h.NumArgs - 1).toNat rest).mapError Failure.invalid).map
        fun v => some ⟨none, c.strptr, v.rollBack⟩

/-- `hostrpc_fprintf` up to the call that it makes. The filler in front of the file pointer
is not taken off `data_not_used`. -/
def hostrpc_fprintf (malloc : ℕ → Bool) (mem : ℕ → Byte) (buf : ℕ) : Except Failure PrintCall :=
  let h := header mem buf
  let c := h.cursor
  let dataptr := c.dataptr + c.dataptr % 8
  let fileptr := readLE mem dataptr 8
  let strsz := readLE mem (dataptr + 8) 4
  let rest : Cursor :=
    ⟨c.keyptr + 8, dataptr + 8 + 4, c.strptr + strsz, sizeT (c.data_not_used - 12)⟩
  ((hostrpc_pfBuildValist malloc mem (h.NumArgs - 2).toNat rest).mapError Failure.invalid).map
    fun v => ⟨some fileptr, c.strptr, v.rollBack⟩

/-- A call of the function pointer. -/
structure FnCall where
  fnptr : ℕ
  args : List ℕ

def hostrpc_call_fnptr (NumArgs fnptr : ℕ) (a : List ℕ) : Except Failure FnCall :=
  if 1 ≤ NumArgs ∧ NumArgs ≤ 32 then .ok ⟨fnptr, a.take NumArgs⟩
  else .error (.rc .RC_EXCEED_MAXVARGS_ERROR)

/-- `hostexec_service` up to the call that it makes. Only 4 bytes are taken off
`data_not_used` for the function pointer. -/
def hostexec_service (mem : ℕ → Byte) (buf bufsz : ℕ) : Except Failure (Option FnCall) :=
  if bufsz = 0 then .ok none
  else
    let h := header mem buf
    let c := h.cursor
    let dataptr := if c.dataptr % 8 = 0 then c.dataptr else c.dataptr + 4
    let data_not_used := if c.dataptr % 8 = 0 then c.data_not_used
      else sizeT (c.data_not_used - 4)
    let fnptr := readLE mem dataptr 8
    let NumArgs := h.NumArgs - 1
    let rest : Cursor := ⟨c.keyptr + 4, dataptr + 8, c.strptr, sizeT (data_not_used - 4)⟩
    if NumArgs ≤ 0 then .error (.rc .RC_ERROR_INVALID_REQUEST)
    else
      (((hostrpc_build_vargs_array mem NumArgs.toNat rest).bind
        (hostrpc_call_fnptr NumArgs.toNat fnptr)).mapError Failure.invalid).map some

/-- What `hostexec_service` and `fortran_rt_service` have unpacked when they come to their own
work: the function pointer, the number of the other arguments and these. -/
structure FnRequest where
  fnptr : ℕ
  NumArgs : ℕ
  a : List ℕ

def unpackFnptr (mem : ℕ → Byte) (buf : ℕ) : Except Failure FnRequest :=
  let h := header mem buf
  let c := h.cursor
  let dataptr := if c.dataptr % 8 = 0 then c.dataptr else c.dataptr + 4
  let data_not_used := if c.dataptr % 8 = 0 then c.data_not_used
    else sizeT (c.data_not_used - 4)
  let fnptr := readLE mem dataptr 8
  let NumArgs := h.NumArgs - 1
  let rest : Cursor := ⟨c.keyptr + 4, dataptr + 8, c.strptr, sizeT (data_not_used - 4)⟩
  if NumArgs ≤ 0 then .error (.rc .RC_ERROR_INVALID_REQUEST)
  else ((hostrpc_build_vargs_array mem NumArgs.toNat rest).mapError Failure.invalid).map
    fun a => ⟨fnptr, NumArgs.toNat, a⟩

variable {mem : ℕ → Byte} {malloc : ℕ → Bool} {buf n len : ℕ} {f g : Entry} {entries : List Entry}

/-- A buffer with its header, its keys, its data and its strings. -/
structure Received (mem : ℕ → Byte) (buf : ℕ) (entries : List Entry) : Prop where
  aligned : 8 ∣ buf
  fits : Fits entries
  space : buf + textEnd (dataLen entries) entries < 2 ^ 64
  lowered : ∀ f ∈ entries, f.Lowered
  datalen : readLE mem buf 4 = dataLen entries
  numargs : readLE mem (buf + 4) 4 = entries.length
  laid : Laid mem buf 8 (4 * (entries.length + 2)) (dataLen entries) entries

theorem readInt_eq {a n : ℕ} (hread : readLE mem a 4 = n) (hn : n < 2 ^ 31) : readInt mem a = n := by
  have hnat : (BitVec.ofNat 32 n).toNat = n := by
    rw [BitVec.toNat_ofNat]
    omega
  unfold readInt
  rw [hread, BitVec.toInt_eq_toNat_of_lt (by omega), hnat]

theorem dataLen_le_textEnd (entries : List Entry) :
    dataLen entries ≤ textEnd (dataLen entries) entries :=
  Nat.le_add_right _ _

theorem Received.header_eq (h : Received mem buf entries) :
    header mem buf = ⟨entries.length, before buf 8 (4 * (entries.length + 2)) (dataLen entries)
      (dataLen entries - 4 * (entries.length + 2))⟩ := by
  have hdata := h.fits.data
  have hspace := h.space
  have htext := dataLen_le_textEnd entries
  have hwords : 4 * (entries.length + 2) ≤ dataLen entries := le_dataEnd _ _
  have hdatalen : readInt mem buf = dataLen entries := readInt_eq h.datalen hdata
  have hnumargs : readInt mem (buf + 4) = entries.length := readInt_eq h.numargs (by omega)
  unfold header before
  rw [hdatalen, hnumargs]
  unfold sizeT
  dsimp only
  congr 2 <;> omega

theorem Received.entry (h : Received mem buf entries) :
    ∀ f ∈ entries, f.Lowered ∧ f.text.length < 2 ^ 32 := by
  intro f hf
  have hbuffer := h.fits.buffer
  have hle : f.text.length ≤ (entries.map fun f => f.text.length).sum :=
    List.le_sum_of_mem (List.mem_map_of_mem hf)
  unfold textEnd at hbuffer
  exact ⟨h.lowered f hf, by omega⟩

theorem string_front {key data str : ℕ} {e : StringExpr} (hstring : f.arg = .string e)
    (hdata : 4 ∣ data) (hlength : f.text.length < 2 ^ 32)
    (hlaid : Laid mem buf key data str (f :: entries)) :
    readLE mem (buf + data) 4 = f.text.length ∧
      Laid mem buf (key + 4) (data + 4) (str + f.text.length) entries ∧
      dataEnd data (f :: entries) = dataEnd (data + 4) entries := by
  obtain ⟨arg, text⟩ := f
  obtain rfl : arg = .string e := hstring
  have hplace : place data ⟨.string e, text⟩ = data := by
    show data + data % 4 = data
    omega
  obtain ⟨-, hval, -, hrest⟩ := hlaid
  rw [hplace] at hval hrest
  refine ⟨hval.trans (Nat.mod_eq_of_lt hlength), hrest, ?_⟩
  rw [dataEnd, hplace]
  rfl

theorem pointer_front {key data str : ℕ} {v : BitVec 64} (hpointer : f = ⟨.pointer v, []⟩)
    (hlaid : Laid mem buf key data str (f :: entries)) :
    readLE mem (buf + (data + data % 8)) 8 = v.toNat ∧
      Laid mem buf (key + 4) (data + data % 8 + 8) str entries ∧
      dataEnd data (f :: entries) = dataEnd (data + data % 8 + 8) entries := by
  subst hpointer
  obtain ⟨-, hval, -, hrest⟩ := hlaid
  exact ⟨hval.trans (Nat.mod_eq_of_lt v.isLt), hrest, rfl⟩

theorem sizeT_sub {m n : ℕ} (hle : n ≤ m) (hm : m < 2 ^ 64) : sizeT ((m : ℤ) - n) = m - n := by
  unfold sizeT
  omega

/-- The format string is taken from the front of the strings, and `vprintf` finds the other
arguments in its list. -/
theorem printf_received (h : Received mem buf (f :: entries)) (hmalloc : ∀ n, malloc n = true)
    {e : StringExpr} (hstring : f.arg = .string e) {bufsz : ℕ} (hsz : bufsz ≠ 0) :
    ∃ v, hostrpc_printf malloc mem buf bufsz =
        .ok (some ⟨none, buf + dataLen (f :: entries), v⟩) ∧
      va_args ((words buf (dataLen (f :: entries) + f.text.length) entries).map Prod.fst) v =
        (words buf (dataLen (f :: entries) + f.text.length) entries).map fun w => w.2 % 256 ^ 8 := by
  have hheader := h.header_eq
  have hfront := string_front hstring (Nat.dvd_mul_right 4 _) (h.entry f List.mem_cons_self).2 h.laid
  have hbound := h.fits.data
  have hlen : dataLen (f :: entries) = dataEnd (4 * ((f :: entries).length + 2)) (f :: entries) := rfl
  generalize dataLen (f :: entries) = len at *
  generalize hD : 4 * ((f :: entries).length + 2) = D at *
  obtain ⟨hstrsz, hlaid, hend⟩ := hfront
  have hle := le_dataEnd (D + 4) entries
  have hcursor : (⟨buf + 8 + 4, buf + D + 4, buf + len + f.text.length, sizeT ((len - D : ℕ) - 4)⟩ :
      Cursor) = before buf (8 + 4) (D + 4) (len + f.text.length) (len - D - 4) := by
    rw [show (4 : ℤ) = (4 : ℕ) from rfl, sizeT_sub (by omega) (by omega)]
    simp only [before, Nat.add_assoc]
  obtain ⟨v, hbuild, hargs⟩ := pfBuildValist_laid hmalloc h.aligned (show 4 ∣ D + 4 by omega)
    (fun g hg => h.entry g (List.mem_cons_of_mem _ hg)) hlaid
    (show dataEnd (D + 4) entries ≤ D + 4 + (len - D - 4) by omega)
  refine ⟨v.rollBack, ?_, hargs⟩
  have hpos : ¬ ((f :: entries).length : ℤ) ≤ 0 := by
    rw [List.length_cons]
    omega
  have hrest : (((f :: entries).length : ℤ) - 1).toNat = entries.length := by simp
  unfold hostrpc_printf
  rw [if_neg hsz, hheader]
  simp only [before] at hcursor hbuild ⊢
  rw [if_neg hpos, hrest, hstrsz, hcursor, hbuild]
  rfl

theorem Received.filler_eq (h : Received mem buf entries) (off : ℕ) : (buf + off) % 8 = off % 8 := by
  have hbuf := h.aligned
  omega

/-- The file pointer and the format string are taken by hand, and `vfprintf` finds the other
arguments in its list. -/
theorem fprintf_received {v : BitVec 64} (h : Received mem buf (⟨.pointer v, []⟩ :: f :: entries))
    (hmalloc : ∀ n, malloc n = true) {e : StringExpr} (hstring : f.arg = .string e) :
    ∃ list, hostrpc_fprintf malloc mem buf =
        .ok ⟨some v.toNat, buf + dataLen (⟨.pointer v, []⟩ :: f :: entries), list⟩ ∧
      va_args ((words buf (dataLen (⟨.pointer v, []⟩ :: f :: entries) + f.text.length) entries).map
          Prod.fst) list =
        (words buf (dataLen (⟨.pointer v, []⟩ :: f :: entries) + f.text.length) entries).map
          fun w => w.2 % 256 ^ 8 := by
  have hheader := h.header_eq
  have hfiller := h.filler_eq
  have hentry : ∀ g ∈ f :: entries, g.Lowered ∧ g.text.length < 2 ^ 32 :=
    fun g hg => h.entry g (List.mem_cons_of_mem _ hg)
  obtain ⟨hfile, hlaid, hend⟩ := pointer_front rfl h.laid
  have hbound := h.fits.data
  have hwords : 4 * ((⟨.pointer v, []⟩ :: f :: entries : List Entry).length + 2) =
      4 * (entries.length + 4) := by simp
  have hlen : dataLen (⟨.pointer v, []⟩ :: f :: entries) =
      dataEnd (4 * (entries.length + 4)) (⟨.pointer v, []⟩ :: f :: entries) := by
    unfold dataLen
    rw [hwords]
  rw [hwords] at hheader hfile hlaid hend
  generalize dataLen (⟨.pointer v, []⟩ :: f :: entries) = len at *
  generalize hD : 4 * (entries.length + 4) = D at *
  have hdata : 4 ∣ D + D % 8 + 8 := by omega
  obtain ⟨hstrsz, hrest, hend'⟩ :=
    string_front hstring hdata (hentry f List.mem_cons_self).2 hlaid
  have hle := le_dataEnd (D + D % 8 + 8 + 4) entries
  have hcursor : (⟨buf + 8 + 8, buf + D + D % 8 + 8 + 4, buf + len + f.text.length,
      sizeT ((len - D : ℕ) - 12)⟩ : Cursor) =
        before buf (8 + 4 + 4) (D + D % 8 + 8 + 4) (len + f.text.length) (len - D - 12) := by
    rw [show (12 : ℤ) = (12 : ℕ) from rfl, sizeT_sub (by omega) (by omega)]
    simp only [before, Nat.add_assoc]
  obtain ⟨list, hbuild, hargs⟩ := pfBuildValist_laid hmalloc h.aligned
    (show 4 ∣ D + D % 8 + 8 + 4 by omega) (fun g hg => hentry g (List.mem_cons_of_mem _ hg)) hrest
    (show dataEnd (D + D % 8 + 8 + 4) entries ≤ D + D % 8 + 8 + 4 + (len - D - 12) by omega)
  have hcount : (((⟨.pointer v, []⟩ :: f :: entries : List Entry).length : ℤ) - 2).toNat =
      entries.length := by
    simp only [List.length_cons]
    omega
  have hpad : (buf + D) % 8 = D % 8 := hfiller D
  refine ⟨list.rollBack, ?_, hargs⟩
  unfold hostrpc_fprintf
  rw [hheader]
  simp only [before, Nat.add_assoc] at hfile hstrsz hcursor hbuild ⊢
  rw [hcount, hpad, hfile, hstrsz, hcursor, hbuild]
  rfl

/-- The function pointer is taken by hand, and the array holds the words of the others. -/
theorem unpackFnptr_received {v : BitVec 64} (h : Received mem buf (⟨.pointer v, []⟩ :: entries))
    (hpos : entries ≠ []) (hcount : entries.length ≤ MAXVARGS) :
    unpackFnptr mem buf = .ok ⟨v.toNat, entries.length,
      (words buf (dataLen (⟨.pointer v, []⟩ :: entries)) entries).map Prod.snd⟩ := by
  have hheader := h.header_eq
  have hfiller := h.filler_eq
  have hentry : ∀ g ∈ entries, g.Lowered ∧ g.text.length < 2 ^ 32 :=
    fun g hg => h.entry g (List.mem_cons_of_mem _ hg)
  obtain ⟨hfnptr, hlaid, hend⟩ := pointer_front rfl h.laid
  have hbound := h.fits.data
  have hlen : dataLen (⟨.pointer v, []⟩ :: entries) =
      dataEnd (4 * ((⟨.pointer v, []⟩ :: entries : List Entry).length + 2))
        (⟨.pointer v, []⟩ :: entries) := rfl
  have hfour : 4 ∣ 4 * ((⟨.pointer v, []⟩ :: entries : List Entry).length + 2) :=
    Nat.dvd_mul_right 4 _
  generalize dataLen (⟨.pointer v, []⟩ :: entries) = len at *
  generalize 4 * ((⟨.pointer v, []⟩ :: entries : List Entry).length + 2) = D at *
  have hle := le_dataEnd (D + D % 8 + 8) entries
  have hdataptr : (header mem buf).cursor.dataptr = buf + D := by
    rw [hheader]
    rfl
  have hnotused : (header mem buf).cursor.data_not_used = len - D := by
    rw [hheader]
    rfl
  have hpad : (if (header mem buf).cursor.dataptr % 8 = 0 then (header mem buf).cursor.dataptr
      else (header mem buf).cursor.dataptr + 4) = buf + (D + D % 8) := by
    rw [hdataptr, hfiller D]
    split_ifs <;> omega
  have hunused : sizeT (((if (header mem buf).cursor.dataptr % 8 = 0 then
      (header mem buf).cursor.data_not_used else
        sizeT ((header mem buf).cursor.data_not_used - 4) : ℕ) : ℤ) - 4) = len - D - D % 8 - 4 := by
    rw [hdataptr, hnotused, hfiller D]
    unfold sizeT
    split_ifs <;> omega
  have hrest := build_vargs_array_laid h.aligned (show 4 ∣ D + D % 8 + 8 by omega) hentry hlaid
    (show dataEnd (D + D % 8 + 8) entries ≤ D + D % 8 + 8 + (len - D - D % 8 - 4) by omega) hcount
  have hlength : 0 < entries.length := List.length_pos_of_ne_nil hpos
  have hnum : ((⟨.pointer v, []⟩ :: entries : List Entry).length : ℤ) - 1 = entries.length := by simp
  unfold unpackFnptr
  dsimp only
  rw [hpad, hunused, hheader]
  simp only [before, ← Nat.add_assoc] at hrest hfnptr ⊢
  rw [hnum, if_neg (by omega), Int.toNat_natCast, hfnptr, hrest]
  rfl

theorem hostexec_service_eq {r : FnRequest} {bufsz : ℕ} (hunpack : unpackFnptr mem buf = .ok r)
    (hsz : bufsz ≠ 0) : hostexec_service mem buf bufsz =
      ((hostrpc_call_fnptr r.NumArgs r.fnptr r.a).mapError Failure.invalid).map some := by
  unfold unpackFnptr at hunpack
  unfold hostexec_service
  rw [if_neg hsz]
  dsimp only at hunpack ⊢
  split_ifs at hunpack ⊢ with hnum
  all_goals
    generalize hostrpc_build_vargs_array mem _ _ = array at hunpack ⊢
    cases array with
    | error e => cases hunpack
    | ok a =>
      obtain rfl := Except.ok.inj hunpack
      rfl

theorem hostexec_received {v : BitVec 64} (h : Received mem buf (⟨.pointer v, []⟩ :: entries))
    (hpos : entries ≠ []) (hcount : entries.length ≤ MAXVARGS) {bufsz : ℕ} (hsz : bufsz ≠ 0) :
    hostexec_service mem buf bufsz = .ok (some ⟨v.toNat,
      (words buf (dataLen (⟨.pointer v, []⟩ :: entries)) entries).map Prod.snd⟩) := by
  have hlength : 0 < entries.length := List.length_pos_of_ne_nil hpos
  rw [hostexec_service_eq (unpackFnptr_received h hpos hcount) hsz]
  unfold hostrpc_call_fnptr
  rw [if_pos ⟨hlength, hcount⟩, List.take_of_length_le (by simp [length_words])]
  rfl

end Aomp.Arguments
